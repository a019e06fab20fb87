import MimeMultipart.Error
/-!
# Media types

A Content-Type as the media-type library reads it: a type, a subtype with an optional suffix,
and parameters. Reading the text is the library's work, and a parameter of the program
(`parse : String → Option MediaType`); the program reads the boundary parameter of a multipart
type off the result.
-/

namespace MimeMultipart

/-- A Content-Type as read: its type, its subtype without the suffix that follows its last `+`,
and its parameters in the order written, names in lower case. -/
structure MediaType where
  type : String
  subtype : String
  suffix : Option String
  params : List (String × String)
  deriving DecidableEq, Repr

namespace MediaType

/-- Type, subtype and suffix together: `type/subtype+suffix`. -/
def essence (m : MediaType) : String :=
  m.type ++ "/" ++ m.subtype ++ (match m.suffix with | some s => "+" ++ s | none => "")

/-- The value of the first parameter called `name`. -/
def param? (m : MediaType) (name : String) : Option String :=
  (m.params.find? (·.1 == name)).map (·.2)

/-- The boundary parameter of a multipart Content-Type, read by `parse`. -/
def multipartBoundary (parse : String → Option MediaType) (s : String) : Except ParseError String :=
  match parse s with
  | none => .error .invalidContentType
  | some m =>
    if m.type != "multipart" then .error .notMultipart
    else
      match m.param? "boundary" with
      | none => .error .missingBoundary
      | some b => if b.isEmpty then .error .emptyBoundary else .ok b

end MediaType

end MimeMultipart
