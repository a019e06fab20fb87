import MimeMultipart.Disposition
import MimeMultipart.Header
import MimeMultipart.MediaType
/-!
# Parts

A part of a message as far as its headers tell: its position and its header list, with the
headers that describe its body read on demand. A header that is absent gives `none`; one that
is present is trimmed and parsed.
-/

namespace MimeMultipart

/-- A part: its position among the parts, counted from zero, and its headers. -/
structure Part where
  index : Nat
  headers : Headers
  deriving DecidableEq, Repr

namespace Part

/-- The raw value of the first header named `name`. -/
def header (p : Part) (name : String) : Option String := p.headers.get name

/-- The part's Content-Type, if it has one, read by `parse`. -/
def contentType (parse : String → Option MediaType) (p : Part) :
    Option (Except ParseError MediaType) :=
  (p.header "content-type").map fun raw =>
    match parse (Blank.trim raw) with
    | some m => .ok m
    | none => .error .invalidPartContentType

def disposition (p : Part) : Option (Except ParseError Disposition) :=
  (p.header "content-disposition").map fun raw => Disposition.parse (Blank.trim raw)

/-- The form field name: the `name` of a Content-Disposition that parses. -/
def fieldName (p : Part) : Option String :=
  match p.disposition with
  | some (.ok d) => d.name
  | _ => none

/-- The file name: the `filename` of a Content-Disposition that parses. -/
def fileName (p : Part) : Option String :=
  match p.disposition with
  | some (.ok d) => d.filename
  | _ => none

end Part

end MimeMultipart
