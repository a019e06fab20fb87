import MimeMultipart.Script.Answer
import MimeMultipart.Scanner
/-!
# Scripts on streams and scanners

Operations on a stream with pushback and on a delimiter scanner, each giving one answer. A
read asks for `n` bytes or for everything, and answers the bytes, or the failure that stopped
it, in which case the bytes read before it are lost. Taking the stream after a scanner ends its
script.
-/

namespace MimeMultipart

/-- Answers bytes read, or the failure that stopped the reading. -/
def Answer.ofRead : Except Failure (List UInt8) → Answer
  | .ok d => .bytes d
  | .error f => .failure f

def runEach {α σ : Type} (step : α → σ → Answer × σ) : List α → σ → List Answer
  | [], _ => []
  | op :: rest, s =>
    let r := step op s
    r.1 :: runEach step rest r.2

/-- An operation on a stream with pushback; `invalid` is one the script could not read, with the
reason. -/
inductive PushbackOp where
  | unread (bs : List UInt8)
  | read (n : Nat)
  | readAll
  | atEnd
  | pending
  | invalid (reason : String)
  deriving DecidableEq, Repr

def PushbackOp.run {σ : Type} [ByteReader σ] : PushbackOp → Pushback σ → Answer × Pushback σ
  | .unread bs, p =>
    let p' := p.unread bs
    (.pending p'.pending.items.length, p')
  | .read n, p =>
    let g := ByteReader.readUpTo p n
    (.ofRead g.bytes?, g.rest)
  | .readAll, p =>
    let g := ByteReader.readToEnd p
    (.ofRead g.bytes?, g.rest)
  | .atEnd, p =>
    match p.atEnd with
    | (.ok b, p') => (.atEnd b, p')
    | (.error f, p') => (.failure f, p')
  | .pending, p => (.pending p.pending.items.length, p)
  | .invalid reason, p => (.malformed reason, p)

/-- An operation on a delimiter scanner. `outerState` asks the state of the scanner under this one,
when it is a scanner too; `remaining` takes the stream after the delimiter and reads it to its end,
ending the script; `invalid` is an operation the script could not read, with the reason. -/
inductive ScanOp where
  | read (n : Nat)
  | readAll
  | readByte
  | drain
  | state
  | outerState
  | remaining
  | invalid (reason : String)
  deriving DecidableEq, Repr

/-- What a scanner script sees under its scanner: the state of an outer scanner, if there is
one, and the answer for the stream after the scanner. -/
structure ScanFloor (σ : Type) where
  outerState : σ → Option Answer
  remaining : Pushback σ → Answer

/-- A scanner straight over a stream: no outer scanner, and the stream after it is answered
with the bytes then pending. -/
def ScanFloor.plain {σ : Type} [ByteReader σ] : ScanFloor σ where
  outerState _ := none
  remaining p :=
    let g := ByteReader.readToEnd p
    match g.bytes? with
    | .ok d => .rest d g.rest.pending.items.length
    | .error f => .failure f

/-- A scanner inside an outer scanner: the stream after it is read through the outer bound,
then the stream after the outer scanner is read too. -/
def ScanFloor.within {σ : Type} [ByteReader σ] : ScanFloor (Scanner σ) where
  outerState o := some (.scanState o.found o.finished)
  remaining p :=
    let g := ByteReader.readToEnd p
    match g.bytes? with
    | .error f => .failure f
    | .ok d =>
      match g.rest.inner.intoRemaining with
      | .error (f, _) => .failure f
      | .ok q =>
        let g' := ByteReader.readToEnd q
        match g'.bytes? with
        | .ok after => .restWithin d g.rest.inner.found after
        | .error f => .failure f

/-- Runs one operation on a scanner; `none` once the script took the stream after it. -/
def ScanOp.run {σ : Type} [ByteReader σ] (floor : ScanFloor σ) :
    ScanOp → Option (Scanner σ) → Answer × Option (Scanner σ)
  | _, none => (.misuse .scannerConsumed, none)
  | .read n, some sc =>
    let g := ByteReader.readUpTo sc n
    (.ofRead g.bytes?, some g.rest)
  | .readAll, some sc =>
    let g := ByteReader.readToEnd sc
    (.ofRead g.bytes?, some g.rest)
  | .readByte, some sc =>
    match sc.readByte with
    | (.ok b, sc') => (.byte b, some sc')
    | (.error f, sc') => (.failure f, some sc')
  | .drain, some sc =>
    match sc.drain with
    | (.ok n, sc') => (.count n, some sc')
    | (.error f, sc') => (.failure f, some sc')
  | .state, some sc => (.scanState sc.found sc.finished, some sc)
  | .outerState, some sc => ((floor.outerState sc.base).getD (.misuse .noOuterScanner), some sc)
  | .remaining, some sc =>
    match sc.intoRemaining with
    | .error (f, _) => (.failure f, none)
    | .ok p => (floor.remaining p, none)
  | .invalid reason, some sc => (.malformed reason, some sc)

end MimeMultipart
