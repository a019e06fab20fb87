import MimeMultipart.Message
import MimeMultipart.Script.Stream
/-!
# Scripts on messages

A message script runs operations in nested contexts: the message itself, its preamble, its
parts sequence, and the current part. An operation that does not belong to the current context
closes it and is tried again in the enclosing one, so a part stays current until an operation
of the sequence or of the message comes. An operation whose arguments cannot be read still
finds its context by its kind, and there answers why, leaving the context open; an operation
of no known kind closes every context and answers at the level of the message. Taking the
epilogue ends the message: every later operation is a misuse.

A part operation `nested` opens a message over the current part's body and runs a script of
its own on it; the body goes on from wherever that script left it.
-/

namespace MimeMultipart

/-- How a script states a message's boundary: the token itself, or a Content-Type carrying it. -/
inductive Framing where
  | token (bytes : List UInt8)
  | contentType (value : String)
  deriving DecidableEq, Repr

/-- How a script opens a message: its framing and, optionally, limits. Limits are checked when
given, and so is the default when the message is made by a builder; a Content-Type framing
always takes the default limits. -/
structure Setup where
  framing : Framing
  limits : Option Limits := none
  builder : Bool := false
  deriving DecidableEq, Repr

/-- Opens a message over `src` as the setup says, a Content-Type read by `parse`. -/
def Setup.build {ρ : Type} (parse : String → Option MediaType) (s : Setup) (src : ρ) :
    Except Failure (Message ρ) :=
  match s.framing with
  | .contentType v => (Message.ofContentType parse src v).mapError .parse
  | .token t =>
    if s.builder then
      (({ limits := s.limits.getD Limits.unlimited } : Builder).build src t).mapError .config
    else
      match s.limits with
      | some l => (Message.withLimits src t l).mapError .config
      | none => .ok (Message.new src t)

/-- The kinds of operation that take arguments. An operation whose arguments cannot be read
still belongs to the context of its kind, and answers why only where that kind is run. -/
inductive Op.Kind where
  | read
  | header
  | headerAll
  | nested
  deriving DecidableEq, Repr, Inhabited

def Op.Kind.keyword : Op.Kind → String
  | .read => "read"
  | .header => "header"
  | .headerAll => "header_all"
  | .nested => "nested"

/-- An operation of a message script. `each` moves through the remaining parts running its
operations on each; `nested` runs a script on a message read from the current part's body;
`unreadable` is an operation of a kind that takes arguments whose arguments could not be read, and
`invalid` one the script could not read at all, with the reason. -/
inductive Op where
  | preamble
  | parts
  | epilogue
  | partsYielded
  | boundary
  | config
  | next
  | each (ops : List Op)
  | read (n : Nat)
  | readAll
  | text
  | headers
  | header (name : String)
  | headerAll (name : String)
  | contentType
  | disposition
  | fieldName
  | fileName
  | index
  | fieldMap
  | nested (setup : Setup) (ops : List Op)
  | unreadable (kind : Op.Kind) (reason : String)
  | invalid (reason : String)
  deriving Repr, Inhabited

def Op.keyword : Op → String
  | .preamble => "preamble"
  | .parts => "parts"
  | .epilogue => "epilogue"
  | .partsYielded => "parts_yielded"
  | .boundary => "boundary"
  | .config => "config"
  | .next => "next"
  | .each _ => "each"
  | .read _ => "read"
  | .readAll => "read_all"
  | .text => "text"
  | .headers => "headers"
  | .header _ => "header"
  | .headerAll _ => "header_all"
  | .contentType => "content_type"
  | .disposition => "disposition"
  | .fieldName => "field_name"
  | .fileName => "file_name"
  | .index => "index"
  | .fieldMap => "header_map"
  | .nested _ _ => "nested"
  | .unreadable k _ => k.keyword
  | .invalid reason => reason

/-- The operations that act on the current part. -/
def Op.onPart : Op → Bool
  | .read _ | .readAll | .text | .headers | .header _ | .headerAll _ | .contentType
  | .disposition | .fieldName | .fileName | .index | .fieldMap | .nested _ _ => true
  | .unreadable _ _ => true
  | _ => false

inductive Context where
  | message
  | preamble
  | parts
  | part (p : Part)
  deriving DecidableEq, Repr

/-- A message under a script, or what is left after its epilogue was taken. -/
inductive Session (ρ : Type) where
  | live (m : Message ρ) (ctx : Context)
  | ended (src : ρ)

def Session.source {ρ : Type} : Session ρ → ρ
  | .live m _ => m.source
  | .ended src => src

namespace Script

def atMessage {ρ : Type} [ByteReader ρ] (op : Op) (m : Message ρ) : Answer × Session ρ :=
  match op with
  | .preamble =>
    match m.takePreamble with
    | .ok m' => (.done, .live m' .preamble)
    | .error e => (.failure (.state e), .live m .message)
  | .parts =>
    match m.takeParts with
    | .ok m' => (.done, .live m' .parts)
    | .error e => (.failure (.state e), .live m .message)
  | .epilogue =>
    match m.intoEpilogue with
    | .error (f, src) => (.failure f, .ended src)
    | .ok p =>
      let g := ByteReader.readToEnd p
      (.ofRead g.bytes?, .ended g.rest.inner)
  | .partsYielded => (.count m.yielded, .live m .message)
  | .boundary => (.boundary m.boundary, .live m .message)
  | .config => (.limits m.limits, .live m .message)
  | .next | .each _ => (.misuse .partsNotRequested, .live m .message)
  | .invalid reason => (.malformed reason, .live m .message)
  | _ => (.misuse .noReader, .live m .message)

def inPreamble {ρ : Type} [ByteReader ρ] (op : Op) (m : Message ρ) : Answer × Session ρ :=
  match op with
  | .read n =>
    let r := m.readPreamble (some n)
    (.ofRead r.1, .live r.2 .preamble)
  | .readAll =>
    let r := m.readPreamble none
    (.ofRead r.1, .live r.2 .preamble)
  | .unreadable .read reason => (.malformed reason, .live m .preamble)
  | _ => atMessage op m

/-- Moves through the parts, running `onEach` on each; `fuel` is never the limit, as each
part follows a separator read from the source. A halt inside a part halts the whole move. -/
def eachPart {ρ : Type} [ByteReader ρ] (onEach : Part → Message ρ → List Answer × Message ρ) :
    Nat → Message ρ → List (Part × List Answer) → Answer × Message ρ
  | 0, m, acc => (.parts acc.reverse (.part none), m)
  | fuel + 1, m, acc =>
    match m.nextPart with
    | (.ok none, m') => (.parts acc.reverse (.part none), m')
    | (.error f, m') => (.parts acc.reverse (.failure f), m')
    | (.ok (some p), m') =>
      let r := onEach p m'
      if Answer.haltsIn r.1 then (.halted, r.2)
      else eachPart onEach fuel r.2 ((p, r.1) :: acc)

section Libraries

variable (libs : Libraries)

/-- Answers an operation on the part `p` that reads nothing but its headers. Any other
operation is unknown among part operations. -/
def partInfo (op : Op) (p : Part) : Answer :=
  match op with
  | .headers => .headers p.headers
  | .header name => .value (p.header name)
  | .headerAll name => .values (p.headers.getAll name)
  | .contentType =>
    match p.contentType libs.parseMediaType with
    | none => .contentType none
    | some (.ok t) => .contentType (some t)
    | some (.error e) => .failure (.parse e)
  | .disposition =>
    match p.disposition with
    | none => .disposition none
    | some (.ok d) => .disposition (some d)
    | some (.error e) => .failure (.parse e)
  | .fieldName => .value p.fieldName
  | .fileName => .value p.fileName
  | .index => .index p.index
  | .fieldMap => Answer.ofHeaderMap libs.http p.headers
  | .unreadable _ reason => .malformed reason
  | .invalid reason => .malformed reason
  | op' => .malformed ("unknown op " ++ op'.keyword)

/-- The text of a body read to its end. -/
def Answer.ofText : Except Failure (List UInt8) → Answer
  | .error f => .failure f
  | .ok d =>
    match Utf8.decode? d with
    | some s => .text s
    | none => .failure (.parse .bodyNotText)

mutual

def run {ρ : Type} [ByteReader ρ] (ops : List Op) (s : Session ρ) : List Answer × Session ρ :=
  match ops with
  | [] => ([], s)
  | op :: rest =>
    let r := step op s
    match r.1 with
    | .halted => ([.halted], r.2)
    | a =>
      let r' := run rest r.2
      (a :: r'.1, r'.2)
termination_by 3 * sizeOf ops

def step {ρ : Type} [ByteReader ρ] (op : Op) (s : Session ρ) : Answer × Session ρ :=
  match s with
  | .ended src => (.misuse .messageConsumed, .ended src)
  | .live m ctx =>
    match ctx with
    | .message => atMessage op m
    | .preamble => inPreamble op m
    | .parts => inParts op m
    | .part p =>
      if op.onPart then
        let r := partStep op p m
        (r.1, .live r.2 (.part p))
      else inParts op m
termination_by 3 * sizeOf op + 2

/-- Answers an operation while the parts sequence is open and no part is current. -/
def inParts {ρ : Type} [ByteReader ρ] (op : Op) (m : Message ρ) : Answer × Session ρ :=
  match op with
  | .next =>
    match m.nextPart with
    | (.ok (some p), m') => (.part (some p), .live m' (.part p))
    | (.ok none, m') => (.part none, .live m' .parts)
    | (.error f, m') => (.failure f, .live m' .parts)
  | .each ops =>
    let r := eachPart (fun p m' => partSteps ops p m') (m.held + 1) m []
    (r.1, .live r.2 .parts)
  | .partsYielded => (.count m.yielded, .live m .parts)
  | op' => if op'.onPart then (.misuse .noCurrentPart, .live m .parts) else atMessage op' m
termination_by 3 * sizeOf op + 1

def partSteps {ρ : Type} [ByteReader ρ] (ops : List Op) (p : Part) (m : Message ρ) :
    List Answer × Message ρ :=
  match ops with
  | [] => ([], m)
  | op :: rest =>
    let r := partStep op p m
    match r.1 with
    | .halted => ([.halted], r.2)
    | a =>
      let r' := partSteps rest p r.2
      (a :: r'.1, r'.2)
termination_by 3 * sizeOf ops

/-- Runs one operation on the part `p`, whose body the message is reading. -/
def partStep {ρ : Type} [ByteReader ρ] (op : Op) (p : Part) (m : Message ρ) :
    Answer × Message ρ :=
  match op with
  | .read n =>
    let r := m.readBody (some n)
    (.ofRead r.1, r.2)
  | .readAll =>
    let r := m.readBody none
    (.ofRead r.1, r.2)
  | .text =>
    let r := m.readBody none
    (Answer.ofText r.1, r.2)
  | .nested setup ops =>
    match m.stage with
    | .body b =>
      match setup.build libs.parseMediaType b with
      | .error f => (.failure f, m)
      | .ok inner =>
        let r := run ops (.live inner .message)
        (if Answer.haltsIn r.1 then .halted else .steps r.1, { m with stage := .body r.2.source })
    | _ => (.steps [], m)
  | op' => (partInfo libs op' p, m)
termination_by 3 * sizeOf op

end

end Libraries

end Script

/-- Runs a script, with the libraries `libs`, on a message opened over `src`; a message that
cannot be opened answers why, and a run that halts answers only that. -/
def Setup.runScript {ρ : Type} [ByteReader ρ] (libs : Libraries) (s : Setup) (src : ρ)
    (ops : List Op) : Answer :=
  match s.build libs.parseMediaType src with
  | .error f => .failure f
  | .ok m =>
    let answers := (Script.run libs ops (.live m .message)).1
    if Answer.haltsIn answers then .halted else .steps answers

end MimeMultipart
