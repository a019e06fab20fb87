import MimeMultipart.Boundary
import MimeMultipart.Header.HeaderMap
import MimeMultipart.Part
/-!
# Answers of scripts

A script is a list of operations run against a stream, a scanner or a message; each operation
gives one answer. An answer is a value read, a failure of the library, or a misuse: an operation
given where it does not apply.
-/

namespace MimeMultipart

/-- An operation given where it does not apply: moving through parts not requested, reading with
no preamble, parts or part open, after the epilogue was taken, through an outer scanner there is
none of, or after the scanner was ended. -/
inductive Misuse where
  | partsNotRequested
  | noReader
  | noCurrentPart
  | messageConsumed
  | noOuterScanner
  | scannerConsumed
  deriving DecidableEq, Repr

def Misuse.message : Misuse → String
  | .partsNotRequested => "parts not requested"
  | .noReader => "no reader"
  | .noCurrentPart => "no current part"
  | .messageConsumed => "message consumed"
  | .noOuterScanner => "no outer scanner"
  | .scannerConsumed => "scanner consumed"

/-- The answer to one operation of a script. Besides the values read, `scanState` says whether a
scanner has seen its delimiter and delivered all before it; `rest` is the stream after a scanner,
read to its end, with the bytes then pending, and `restWithin` the same through an outer scanner;
`parts` gives each part of a sequence with the answers of the operations run on it, then how the
sequence ended; `steps` holds the answers of a script run inside the operation; `halted` stops
the whole run, as when a header map is refused the room it needs. -/
inductive Answer where
  | done
  | bytes (data : List UInt8)
  | byte (b : Option UInt8)
  | count (n : Nat)
  | pending (n : Nat)
  | atEnd (b : Bool)
  | scanState (found finished : Bool)
  | rest (data : List UInt8) (pending : Nat)
  | restWithin (data : List UInt8) (outerFound : Bool) (after : List UInt8)
  | text (s : String)
  | part (p : Option Part)
  | parts (runs : List (Part × List Answer)) (last : Answer)
  | headers (hs : Headers)
  | value (v : Option String)
  | values (vs : List String)
  | contentType (m : Option MediaType)
  | disposition (d : Option Disposition)
  | index (n : Nat)
  | fieldMap (fields : List (String × List UInt8))
  | boundary (b : Boundary)
  | limits (l : Limits)
  | steps (answers : List Answer)
  | failure (f : Failure)
  | misuse (m : Misuse)
  | malformed (reason : String)
  | halted

/-- Answers the header map of a header list with its fields, name by name. -/
def Answer.ofHeaderMap (http : Http) (hs : Headers) : Answer :=
  match hs.toHeaderMap http with
  | none => .halted
  | some (.ok m) => .fieldMap (http.toList m)
  | some (.error e) => .failure (.parse e)

def Answer.haltsIn (answers : List Answer) : Bool :=
  match answers.getLast? with
  | some .halted => true
  | _ => false

/-- The libraries a script runs with: a media-type parser and a header-map library. -/
structure Libraries where
  parseMediaType : String → Option MediaType
  http : Http

end MimeMultipart
