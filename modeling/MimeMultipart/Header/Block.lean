import MimeMultipart.Header
import MimeMultipart.Limits
import MimeMultipart.Scanner
import MimeMultipart.Text.Latin1
/-!
# Header blocks

A part starts with a header block: lines `name:value` ending in CRLF, closed by an empty line,
so the block ends at the first CRLF CRLF. A part that starts with CRLF has no headers. A line
without a `:` or with an empty name ends the block early; the rest of the block up to CRLF CRLF
is skipped. The stream after the block is the part's body.

With `max_header_size` set to `N`, a name longer than `N` bytes, or a name and value longer
than `N` bytes together, is refused; with `max_headers` set to `M`, a header line that parses
while `M` headers are held is refused. Names and values are read as ISO-8859-1.
-/

namespace MimeMultipart

namespace HeaderBlock

def terminator : Delimiter := ⟨[13, 10, 13, 10], by simp⟩

def lineEnd : Delimiter := ⟨[13, 10], by simp⟩

def colon : Delimiter := ⟨[58], by simp⟩

variable {τ σ : Type} [ByteReader τ] [ByteReader σ]

/-- Reads a stream to its end when `max` is `none`; else at most `max - used` bytes, more being
a header size failure. -/
def readField (s : τ) (max : Option Nat) (used : Nat) : Except Failure (List UInt8) × τ :=
  match max with
  | none =>
    let g := ByteReader.readToEnd s
    (g.bytes?, g.rest)
  | some n =>
    let g := ByteReader.readUpTo s (n - used + 1)
    match g.bytes? with
    | .ok d => (if d.length ≤ n - used then .ok d else .error (.headerSize n), g.rest)
    | .error f => (.error f, g.rest)

/-- Reads one header line: `none` when the line has no `:` or an empty name. -/
def readLine (line : τ) (max : Option Nat) : Except (Failure × τ) (Option Header × τ) :=
  match readField (Scanner.new line colon) max 0 with
  | (.error f, names) => .error (f, names.base)
  | (.ok name, names) =>
    if name.isEmpty || !names.found then .ok (none, names.base)
    else
      match names.intoRemaining with
      | .error e => .error e
      | .ok rest =>
        match readField rest max name.length with
        | (.error f, rest') => .error (f, rest'.inner)
        | (.ok value, rest') => .ok (some ⟨Latin1.decode name, Latin1.decode value⟩, rest'.inner)

/-- The body after the block: the rest of the block is skipped, and the bytes read past it
stay pushed back. -/
def finish (rest : Pushback (Scanner σ)) (hs : Headers) :
    Except (Failure × σ) (Headers × Pushback σ) :=
  (rest.inner.intoRemaining).map fun body => (hs, body)

/-- Reads header lines until the block ends, after the `count` headers `held`, newest first,
read so far; `fuel` bounds their count and is never the limit, as each line takes at least
one byte. -/
def lines (limits : Limits) : Nat → Pushback (Scanner σ) → List Header → Nat →
    Except (Failure × σ) (Headers × Pushback σ)
  | 0, rest, held, _ => finish rest ⟨held.reverse⟩
  | fuel + 1, rest, held, count =>
    match rest.atEnd with
    | (.error f, rest') => .error (f, rest'.inner.base)
    | (.ok true, rest') => finish rest' ⟨held.reverse⟩
    | (.ok false, rest') =>
      match readLine (Scanner.withSource rest' lineEnd) limits.maxHeaderSize with
      | .error (f, line) => .error (f, line.base.base)
      | .ok (header, line) =>
        match line.intoRemaining with
        | .error (f, sec) => .error (f, sec.base)
        | .ok rest'' =>
          match header with
          | none => finish rest'' ⟨held.reverse⟩
          | some h =>
            match limits.maxHeaders with
            | some m =>
              if m ≤ count then .error (.headersLimit m, rest''.inner.base)
              else lines limits fuel rest'' (h :: held) (count + 1)
            | none => lines limits fuel rest'' (h :: held) (count + 1)

end HeaderBlock

/-- Reads the header block at the start of a stream: the headers and the body after them. On
a failure only the stream is left, without the bytes read ahead. -/
def Headers.readBlock {σ : Type} [ByteReader σ] (src : σ) (limits : Limits) :
    Except (Failure × σ) (Headers × Pushback σ) :=
  let g := ByteReader.readUpTo ({ inner := src } : Pushback σ) 2
  match g.ending with
  | .failed => .error (.source, g.rest.inner)
  | _ =>
    if g.data == [13, 10] then .ok ({}, g.rest)
    else
      let rest : Pushback (Scanner σ) :=
        { inner := Scanner.withSource (g.rest.unread g.data) HeaderBlock.terminator }
      HeaderBlock.lines limits (ByteReader.bound rest + 1) rest [] 0

/-! ## The block of a whole byte string -/

namespace HeaderBlock

/-- What one line of a header block gives: a line longer than the header size limit allows, the
end of the block (a line without a `:` or starting with one), or a header. -/
inductive LineResult where
  | tooLong (max : Nat)
  | stop
  | header (h : Header)
  deriving DecidableEq, Repr

/-- One line of a header block, read against the header size limit. -/
def lineResult (max : Option Nat) (line : List UInt8) : LineResult :=
  let name := line.takeWhile (· != 58)
  let value := (line.dropWhile (· != 58)).drop 1
  let colon := line.contains 58
  let size := if colon then name.length + value.length else line.length
  match max with
  | some n =>
    if (!colon || !name.isEmpty) && n < size then .tooLong n
    else if !colon || name.isEmpty then .stop
    else .header ⟨Latin1.decode name, Latin1.decode value⟩
  | none =>
    if !colon || name.isEmpty then .stop else .header ⟨Latin1.decode name, Latin1.decode value⟩

/-- The headers of the given lines, in order, stopping at a line that is no header. -/
def headersOf (limits : Limits) : List (List UInt8) → Headers → Except Failure Headers
  | [], hs => .ok hs
  | line :: rest, hs =>
    match lineResult limits.maxHeaderSize line with
    | .tooLong n => .error (.headerSize n)
    | .stop => .ok hs
    | .header h =>
      match limits.maxHeaders with
      | some m => if m ≤ hs.size then .error (.headersLimit m) else headersOf limits rest (hs.push h)
      | none => headersOf limits rest (hs.push h)

/-- The lines of a block: its pieces between line ends, without a last empty piece. -/
def linesOf (block : List UInt8) : List (List UInt8) :=
  let pieces := lineEnd.split block
  if pieces.getLast? = some [] then pieces.dropLast else pieces

end HeaderBlock

/-- The header block at the start of a whole byte string, and the body after it: the block
runs to the leftmost CRLF CRLF, and a string starting with CRLF has no headers. -/
def Headers.ofBlockBytes (limits : Limits) (s : List UInt8) :
    Except Failure (Headers × List UInt8) :=
  if s.take 2 = [13, 10] then .ok ({}, s.drop 2)
  else
    let (block, body) := (HeaderBlock.terminator.cut s).getD (s, [])
    (HeaderBlock.headersOf limits (HeaderBlock.linesOf block) {}).map fun hs => (hs, body)

end MimeMultipart
