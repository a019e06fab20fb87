import MimeMultipart.Scanner
/-!
# A scanner's window as a buffer

`Scanner` keeps of its window only the bytes read ahead and not yet delivered. The program keeps
them in a buffer of `2 * |d|` bytes, allocated on the first read, with a cursor before which the
bytes were delivered, a fill mark before which the buffer holds bytes read, and the offset at
which the delimiter starts once it is located. Delivered bytes stay in the buffer until the next
top-up moves the others to its front.

`Buffer` is that layout, operation by operation. Its slices and subtractions are checked: a
slice out of range or a subtraction below zero halts the program, and there the operations
answer `none`. The read loop of the program has no bound of its own; `read` goes round it twice,
and two rounds always suffice, since a top-up that does not fail leaves an occurrence, the end of
the data or a full buffer, and each of those lets the next round answer.

`Buffer.scanner` reads a buffer back as the scanner it lays out.
-/

namespace MimeMultipart

namespace Scanner

/-- A scanner with its window laid out as the program keeps it: a buffer (empty before the first
read, `2 * |d|` bytes after it) whose bytes before `cursor` were delivered and before `filled`
were read, `located` where the delimiter starts in it once found, and flags for the first fill, the
end of the data and the delivery of every byte before the delimiter or the end. -/
structure Buffer (σ : Type) where
  source : Pushback σ
  delimiter : Delimiter
  window : List UInt8 := []
  cursor : Nat := 0
  filled : Nat := 0
  located : Option Nat := none
  primed : Bool := false
  exhausted : Bool := false
  closed : Bool := false

namespace Buffer

variable {σ : Type}

def slice? (xs : List UInt8) (lo hi : Nat) : Option (List UInt8) :=
  if lo ≤ hi ∧ hi ≤ xs.length then some ((xs.drop lo).take (hi - lo)) else none

def sub? (a b : Nat) : Option Nat := if b ≤ a then some (a - b) else none

def overwrite (xs : List UInt8) (pos : Nat) (bs : List UInt8) : List UInt8 :=
  xs.take pos ++ bs ++ xs.drop (pos + bs.length)

def withSource (source : Pushback σ) (d : Delimiter) : Buffer σ := { source, delimiter := d }

def close (b : Buffer σ) : Buffer σ :=
  { b with closed := true, cursor := 0, filled := 0, window := [] }

/-- Delivers at most `n` bytes from the cursor, before `limit`; closes once the cursor reaches the
delimiter, or the fill mark after the end of the data. -/
def serve (b : Buffer σ) (n limit : Nat) : Option (List UInt8 × Buffer σ) := do
  let room ← sub? limit b.cursor
  let k := min n room
  let out ← slice? b.window b.cursor (b.cursor + k)
  let b' := { b with cursor := b.cursor + k }
  let atBoundary := b'.located == some b'.cursor
  let atEnd := b.exhausted && b.located.isNone && b'.cursor == b.filled
  pure (out, if atBoundary || atEnd then b'.close else b')

/-- Moves the bytes not yet delivered to the front of the buffer. -/
def compact (b : Buffer σ) : Option (Buffer σ) :=
  if 0 < b.cursor then do
    let rest ← slice? b.window b.cursor b.filled
    let filled ← sub? b.filled b.cursor
    pure { b with window := overwrite b.window 0 rest, filled, cursor := 0 }
  else pure b

variable [ByteReader σ]

/-- Reads into the buffer from the fill mark until it is full, the data ends or a read fails.
Answers `false` on a failure; the bytes read before it stay. -/
def fill (b : Buffer σ) : Option (Bool × Buffer σ) :=
  if b.filled < b.window.length then
    match ByteReader.read b.source (b.window.length - b.filled) with
    | (.failed, src) => some (false, { b with source := src })
    | (.bytes [], src) => some (true, { b with source := src, exhausted := true })
    | (.bytes (x :: xs), src) =>
      if (x :: xs).length ≤ b.window.length - b.filled then
        fill { b with source := src, window := overwrite b.window b.filled (x :: xs)
                      filled := b.filled + (x :: xs).length }
      else none
  else some (true, b)
termination_by b.window.length - b.filled
decreasing_by simp [overwrite]; omega

/-- Searches the buffer up to the fill mark. At an occurrence the bytes read past it go back to
the source, and the fill mark moves to the end of the delimiter. -/
def search (b : Buffer σ) : Option (Buffer σ) := do
  let data ← slice? b.window 0 b.filled
  match b.delimiter.find data with
  | none => pure b
  | some pos =>
    let stop := pos + b.delimiter.length
    let rest ← slice? b.window stop b.filled
    pure { b with source := b.source.unread rest, filled := stop, located := some pos }

/-- Moves the bytes not yet delivered to the front, tops the buffer up and searches it. Answers
`false` when the source failed, leaving the bytes read unsearched. -/
def refill (b : Buffer σ) : Option (Bool × Buffer σ) := do
  let b ← b.compact
  match ← b.fill with
  | (false, b) => pure (false, b)
  | (true, b) => pure (true, ← b.search)

/-- What one round of the read loop does: answer with the bytes delivered, or, with too few
searched bytes left, top the buffer up and go round again. -/
inductive Round (σ : Type) where
  | answer (bs : List UInt8) (b : Buffer σ)
  | topUp

/-- One round of the read loop: serve up to the delimiter once it is located, up to the fill mark
once the data ended, and else all but the last `|d|` bytes read, at which an occurrence could
still start. -/
def round (b : Buffer σ) (n : Nat) : Option (Round σ) :=
  match b.located with
  | some pos =>
    if b.cursor < pos then (b.serve n pos).map fun r => .answer r.1 r.2
    else some (.answer [] b.close)
  | none =>
    if b.exhausted then
      if b.cursor < b.filled then (b.serve n b.filled).map fun r => .answer r.1 r.2
      else some (.answer [] b.close)
    else
      let limit := b.filled - b.delimiter.length
      if b.cursor < limit then (b.serve n limit).map fun r => .answer r.1 r.2
      else some .topUp

def loop (n : Nat) : Nat → Buffer σ → Option (Delivery × Buffer σ)
  | 0, _ => none
  | rounds + 1, b => do
    match ← b.round n with
    | .answer bs b' => pure (.bytes bs, b')
    | .topUp =>
      match ← b.refill with
      | (false, b') => pure (.failed, b')
      | (true, b') => loop n rounds b'

/-- Answers a request for at most `n` bytes. The first request allocates the buffer and fills it;
then the loop answers from the buffer, topping it up while too few searched bytes are left. -/
def read (b : Buffer σ) (n : Nat) : Option (Delivery × Buffer σ) :=
  if n = 0 || b.closed then some (.bytes [], b)
  else do
    let (ok, b) ← if b.primed then pure (true, b)
      else refill { b with primed := true, window := List.replicate (2 * b.delimiter.length) 0 }
    if ok then loop n 2 b else pure (.failed, b)

/-- The buffer after requests of the given sizes, one after another; a request that fails leaves
the buffer as the failure left it, to be read again. Reading a byte is a request for one, and
draining is requests until one brings nothing. -/
def run (b : Buffer σ) : List Nat → Option (Buffer σ)
  | [] => some b
  | n :: ns => do
    let (_, b') ← b.read n
    b'.run ns

end Buffer

/-- The scanner that a buffer lays out: its window holds the bytes from the cursor up to the
delimiter, or up to the fill mark while the delimiter is not located. -/
def Buffer.scanner {σ : Type} (b : Buffer σ) : Scanner σ where
  delimiter := b.delimiter
  source := b.source
  window := if b.closed then [] else (b.window.drop b.cursor).take (b.located.getD b.filled - b.cursor)
  phase :=
    if b.closed then .closed b.located.isSome
    else if !b.primed then .fresh
    else match b.located with
      | some _ => .located
      | none => if b.exhausted then .drained else .scanning

end Scanner

end MimeMultipart
