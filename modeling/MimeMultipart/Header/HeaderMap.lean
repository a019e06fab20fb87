import MimeMultipart.Error
import MimeMultipart.Header
import MimeMultipart.Text.Latin1
import MimeMultipart.Text.Utf8
/-!
# Header maps

A header list converts to the header map of the `http` library: each trimmed name becomes a
header name, each trimmed value, encoded in ISO-8859-1, a header value, and the map gathers the
values of each name. The first header that fails decides the error, its name being checked
before its value. The map is made with room for as many fields as the list has headers.

The library is a parameter, `Http`: the operations the conversion calls, a header name seen as
the text it spells and a header value as its bytes. What is proved of the conversion assumes no
more of the library than the laws of `Http.Lawful`, and the room a map is made with is a
hypothesis of each statement that needs it, since the library may refuse it and halt.
-/

namespace MimeMultipart

/-- A token byte: ASCII letters and digits and ``!#$%&'*+-.^_`|~``. -/
def isFieldNameByte (b : UInt8) : Bool :=
  (48 ≤ b && b ≤ 57) || (65 ≤ b && b ≤ 90) || (97 ≤ b && b ≤ 122) ||
    [33, 35, 36, 37, 38, 39, 42, 43, 45, 46, 94, 95, 96, 124, 126].contains b

/-- A byte allowed in a field value: printable, or a tab. -/
def isFieldValueByte (b : UInt8) : Bool := (32 ≤ b && b != 127) || b == 9

def lowerByte (b : UInt8) : UInt8 := if 65 ≤ b && b ≤ 90 then b + 32 else b

/-- The operations of a header-map library: `name?` makes a header name of bytes, seen as the
text it spells, or refuses them; `isValue` accepts bytes as a header value; `withCapacity?` makes
an empty map with room for a number of fields, or halts; `append` adds a value under a name;
`getAll` gives the values under a name; `toList` every field, name by name. -/
structure Http where
  Map : Type
  name? : List UInt8 → Option String
  isValue : List UInt8 → Bool
  withCapacity? : Nat → Option Map
  append : Map → String → List UInt8 → Map
  getAll : Map → String → List (List UInt8)
  toList : Map → List (String × List UInt8)

namespace Http

/-- The laws of a header-map library that the conversion's properties rest on: a header name is
made of token bytes and spells them with ASCII letters lowered; a value is accepted exactly when
it has no control byte but tab; a new map holds nothing; and `append` puts a value after those
its name has. -/
structure Lawful (http : Http) : Prop where
  name_tokens : ∀ {bs k}, http.name? bs = some k → ∀ b ∈ bs, isFieldNameByte b = true
  name_lower : ∀ {bs k}, http.name? bs = some k → k = Latin1.decode (bs.map lowerByte)
  isValue_iff : ∀ bs, http.isValue bs = bs.all isFieldValueByte
  getAll_new : ∀ {n m}, http.withCapacity? n = some m → ∀ k, http.getAll m k = []
  getAll_append : ∀ m k v k', http.getAll (http.append m k v) k' =
    if k = k' then http.getAll m k' ++ [v] else http.getAll m k'

variable (http : Http)

def nameOf? (h : Header) : Option String := http.name? (Utf8.encode (Blank.trim h.name))

/-- The field of one header: its header name, then its trimmed value in ISO-8859-1 as a header
value. -/
def field (h : Header) : Except ParseError (String × List UInt8) :=
  match http.nameOf? h with
  | none => .error .invalidFieldName
  | some k =>
    match Latin1.encode? h.trimmedValue with
    | none => .error .fieldValueNotLatin1
    | some bs => if http.isValue bs then .ok (k, bs) else .error .invalidFieldValue

/-- Appends the fields of headers in order, stopping at the first that fails. -/
def appendAll (m : http.Map) : List Header → Except ParseError http.Map
  | [] => .ok m
  | h :: rest =>
    match http.field h with
    | .error e => .error e
    | .ok (k, v) => appendAll (http.append m k v) rest

end Http

/-- The header map of a list, made with room for its headers; `none` when the library halts on
that room. -/
def Headers.toHeaderMap (http : Http) (hs : Headers) : Option (Except ParseError http.Map) :=
  (http.withCapacity? hs.size).map fun m => http.appendAll m hs.entries

end MimeMultipart
