import MimeMultipart.Boundary
import MimeMultipart.Header.Block
import MimeMultipart.MediaType
import MimeMultipart.Part
/-!
# Multipart messages

A message is read in one pass over its source. The closing delimiter of its boundary bounds
the whole message; inside that bound the opening delimiter ends the preamble and each
separator ends a part. Each part starts with a header block, and its body runs to the next
separator, to the closing delimiter or to the end of the data. Whatever follows the first
closing delimiter is the epilogue.

The message is a one-shot state machine (`Message.Stage`): moving to the next part skips the
rest of the current one; the preamble can be taken once and only before the parts; the parts
can be requested once. A failure while moving on leaves the message poisoned, except that
reaching `max_parts` leaves it exhausted.
-/

namespace MimeMultipart

/-- The stream between two delimiters: bounded by the part separator (or the opening
delimiter), inside the bound of the closing delimiter. -/
abbrev Segment (ρ : Type) := Scanner (Scanner ρ)

/-- A part body: the rest of a segment after the part's header block. -/
abbrev Body (ρ : Type) := Pushback (Segment ρ)

/-- Where a message stands: before the first part, where the preamble runs up to the opening
delimiter; inside a part whose body is being read; with no part to follow, holding what is left
inside the closing bound; or poisoned by an earlier failure, with only its source left. -/
inductive Message.Stage (ρ : Type) where
  | preamble (segment : Segment ρ)
  | body (body : Body ρ)
  | exhausted (rest : Pushback (Scanner ρ))
  | poisoned (source : ρ)

/-- A multipart message read from a source of type `ρ`, with whether its preamble and its parts
were taken and the number of parts yielded so far. -/
structure Message (ρ : Type) where
  boundary : Boundary
  limits : Limits
  stage : Message.Stage ρ
  preambleTaken : Bool := false
  partsTaken : Bool := false
  yielded : Nat := 0

namespace Message

variable {ρ : Type}

def ofBoundary (src : ρ) (b : Boundary) (limits : Limits) : Message ρ :=
  { boundary := b, limits
    stage := .preamble (Scanner.new (Scanner.new src b.closing) b.opening) }

/-- A message with no limits; the boundary token is taken as given. -/
def new (src : ρ) (token : List UInt8) : Message ρ := ofBoundary src ⟨token⟩ Limits.unlimited

def withLimits (src : ρ) (token : List UInt8) (limits : Limits) : Except ConfigError (Message ρ) :=
  limits.validate.map fun _ => ofBoundary src ⟨token⟩ limits

/-- A message whose boundary is the `boundary` parameter of a multipart Content-Type, read by
`parse`. -/
def ofContentType (parse : String → Option MediaType) (src : ρ) (contentType : String) :
    Except ParseError (Message ρ) :=
  (MediaType.multipartBoundary parse contentType).map fun b => new src (Utf8.encode b)

/-- The source under the message, without the bytes its readers hold. -/
def Stage.source : Stage ρ → ρ
  | .preamble seg => seg.base.base
  | .body b => b.inner.base.base
  | .exhausted rest => rest.inner.base
  | .poisoned s => s

def source (m : Message ρ) : ρ := m.stage.source

/-- Takes the preamble: refused once taken, or once the parts were requested. -/
def takePreamble (m : Message ρ) : Except StateError (Message ρ) :=
  if m.preambleTaken || m.partsTaken then .error .preambleUnavailable
  else
    match m.stage with
    | .preamble _ => .ok { m with preambleTaken := true }
    | _ => .error .preambleUnavailable

/-- Requests the parts: refused the second time. -/
def takeParts (m : Message ρ) : Except StateError (Message ρ) :=
  if m.partsTaken then .error .partsUnavailable else .ok { m with partsTaken := true }

/-- The message poisoned by a failure, with only its source left. -/
def poison {α : Type} (m : Message ρ) (f : Failure) (src : ρ) : Except Failure α × Message ρ :=
  (.error f, { m with stage := .poisoned src })

variable [ByteReader ρ]

/-- The bytes a scanner holds and its source can still deliver. -/
def heldBy (sc : Scanner ρ) : Nat :=
  sc.window.length + sc.source.pending.items.length + ByteReader.bound sc.base

/-- The bytes the message holds in its readers and its source can still deliver. Each part
takes at least one of them, its separator. -/
def held (m : Message ρ) : Nat :=
  match m.stage with
  | .preamble seg => seg.window.length + seg.source.pending.items.length + heldBy seg.base
  | .body b =>
    b.pending.items.length + b.inner.window.length + b.inner.source.pending.items.length + heldBy b.inner.base
  | .exhausted rest => rest.pending.items.length + heldBy rest.inner
  | .poisoned s => ByteReader.bound s

/-- Reads from the preamble; nothing once the message has moved past it. -/
def readPreamble (m : Message ρ) (n : Option Nat) : Except Failure (List UInt8) × Message ρ :=
  match m.stage with
  | .preamble seg =>
    let g := ByteReader.readSome seg n
    (g.bytes?, { m with stage := .preamble g.rest })
  | _ => (.ok [], m)

/-- Reads from the body of the current part; nothing outside a part. -/
def readBody (m : Message ρ) (n : Option Nat) : Except Failure (List UInt8) × Message ρ :=
  match m.stage with
  | .body b =>
    let g := ByteReader.readSome b n
    (g.bytes?, { m with stage := .body g.rest })
  | _ => (.ok [], m)

/-- Moves from a segment whose start was already passed to the next part: skips the rest of
the segment; if it ended on a separator, reads the next part's header block. -/
def enter (m : Message ρ) (segment : Segment ρ) : Except Failure (Option Headers) × Message ρ :=
  match segment.drain with
  | (.error f, seg) => m.poison f seg.base.base
  | (.ok _, seg) =>
    match seg.intoRemaining with
    | .error (f, bounded) => m.poison f bounded.base
    | .ok rest =>
      if !seg.found then (.ok none, { m with stage := .exhausted rest })
      else if !m.limits.allowsPart m.yielded then
        (.error (.partsLimit (m.limits.maxParts.getD m.yielded)), { m with stage := .exhausted rest })
      else
        match Headers.readBlock (Scanner.withSource rest m.boundary.interPart) m.limits with
        | .error (f, seg') => m.poison f seg'.base.base
        | .ok (hs, body) => (.ok (some hs), { m with stage := .body body, yielded := m.yielded + 1 })

/-- Moves to the next part and gives its headers, or `none` when no part follows. -/
def advance (m : Message ρ) : Except Failure (Option Headers) × Message ρ :=
  match m.stage with
  | .preamble seg => m.enter seg
  | .body b =>
    let g := ByteReader.readToEnd b
    match g.ending with
    | .failed => m.poison .source g.rest.inner.base.base
    | _ => m.enter g.rest.inner
  | .exhausted _ => (.ok none, m)
  | .poisoned s => (.error (.state .poisoned), { m with stage := .poisoned s })

/-- Moves to the next part and gives it, or `none` when no part follows. A move that read a
header block hands out the body it left the message in; were the message anywhere else, it
would answer that it is poisoned. -/
def nextPart (m : Message ρ) : Except Failure (Option Part) × Message ρ :=
  match m.advance with
  | (.ok (some hs), m') =>
    match m'.stage with
    | .body _ => (.ok (some ⟨m'.yielded - 1, hs⟩), m')
    | _ => (.error (.state .poisoned), m')
  | (.ok none, m') => (.ok none, m')
  | (.error f, m') => (.error f, m')

/-- Ends the message: skips everything up to the closing delimiter and gives the stream after
it, the epilogue. A poisoned message has no epilogue. On a failure only the source is left. -/
def intoEpilogue (m : Message ρ) : Except (Failure × ρ) (Pushback ρ) :=
  let bounded : Except (Failure × ρ) (Pushback (Scanner ρ)) :=
    match m.stage with
    | .preamble seg => seg.intoRemaining.mapError fun e => (e.1, e.2.base)
    | .body b => b.inner.intoRemaining.mapError fun e => (e.1, e.2.base)
    | .exhausted rest => .ok rest
    | .poisoned s => .error (.state .poisoned, s)
  match bounded with
  | .error e => .error e
  | .ok rest =>
    let g := ByteReader.readToEnd rest
    match g.ending with
    | .failed => .error (.source, g.rest.inner.base)
    | _ => g.rest.inner.intoRemaining

end Message

/-- Opens a message with the limits the builder collected, checking them first. -/
def Builder.build {ρ : Type} (b : Builder) (src : ρ) (token : List UInt8) :
    Except ConfigError (Message ρ) :=
  Message.withLimits src token b.limits

end MimeMultipart
