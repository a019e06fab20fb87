import MimeMultipart.Script.Answer
/-!
# Reference libraries

The program takes the libraries that read media types and build header maps as a parameter
(`Libraries`). These are the instances it is run with, `Libraries.reference`: the media-type
grammar of the `mime` library and the header maps of version 1 of the `http` library.

## Media types

The Content-Type grammar: a type of token characters, `/`, a subtype of token characters whose
suffix follows its last `+`, and parameters after `;`. Spaces may stand only right after a `;`
and after a closing quote. A parameter value is a token, or a quoted string of printable
characters without escapes; an empty token is allowed only at the very end. Type, subtype,
parameter names and the values of `charset` are reported in ASCII lower case.

One shorthand of the grammar is kept: when the first parameter is written `; charset=utf-8`
with exactly one space and other parameters follow, its reported value is the five characters
after its `=`, so a quoted `"utf-8"` reads as `"utf-`.

## Header maps

A header name is 1 to 65535 token bytes, ASCII letters lowered; a header value has no control
byte but tab. A map's table has at most 32768 slots and needs a third more slots than fields,
so a map is made with room for at most 24576 fields; asking for more halts.
-/

namespace MimeMultipart

namespace MediaType

/-- A token character: ASCII letters and digits and `!#$%&'*+-.^_` with backquote, `|`, `~`. -/
def isTokenChar (c : Char) : Bool :=
  c.isAlphanum || "!#$%&'*+-.^_`|~".toList.contains c

/-- A character allowed inside quotes: not a control character. -/
def isQuotedChar (c : Char) : Bool := 31 < c.toNat && c.toNat != 127

def lower (cs : List Char) : List Char := cs.map Char.toLower

/-! ### Parameters -/

/-- A parameter as written: the spaces before its name, its name, its value and whether the
value was quoted. -/
structure Written where
  gap : Nat
  name : List Char
  value : List Char
  quoted : Bool

/-- What follows a parameter value: the end, or the text after the next `;`. -/
inductive After where
  | finish
  | more (rest : List Char)

/-- After a closing quote: spaces, then `;` or the end. -/
def afterQuote : List Char → Option After
  | [] => some .finish
  | ';' :: rest => some (.more rest)
  | ' ' :: rest => afterQuote rest
  | _ :: _ => none

/-- A quoted value after its opening quote: printable characters up to a quote that is not
the first of them. -/
def quotedValue : List Char → Option (List Char × After)
  | [] => none
  | c :: rest =>
    if isQuotedChar c then
      let body := rest.takeWhile (· != '"')
      match rest.dropWhile (· != '"') with
      | _ :: after =>
        if body.all isQuotedChar then (afterQuote after).map fun a => (c :: body, a) else none
      | [] => none
    else none

/-- A token value: token characters up to a `;` (not an empty one) or the end. -/
def tokenValue (cs : List Char) : Option (List Char × After) :=
  let v := cs.takeWhile isTokenChar
  match cs.dropWhile isTokenChar with
  | [] => some (v, .finish)
  | ';' :: rest => if v.isEmpty then none else some (v, .more rest)
  | _ :: _ => none

/-- The parameters after a `;`, each with the spaces before it; `fuel` bounds their count and
is never the limit, as each parameter takes at least one character. -/
def paramsFrom : Nat → List Char → Option (List Written)
  | 0, _ => some []
  | fuel + 1, cs =>
    let gap := (cs.takeWhile (· == ' ')).length
    match cs.dropWhile (· == ' ') with
    | [] => some []
    | body =>
      let name := body.takeWhile isTokenChar
      match body.dropWhile isTokenChar with
      | '=' :: rest =>
        if name.isEmpty then none
        else
          let value := match rest with
            | '"' :: inner => (quotedValue inner).map fun (p : List Char × After) => (p.1, true, p.2)
            | _ => (tokenValue rest).map fun (p : List Char × After) => (p.1, false, p.2)
          match value with
          | none => none
          | some (v, quoted, .finish) => some [⟨gap, name, v, quoted⟩]
          | some (v, quoted, .more rest') =>
            (paramsFrom fuel rest').map (⟨gap, name, v, quoted⟩ :: ·)
      | _ => none

/-- A parameter as reported: the name in lower case, and a `charset` value in lower case. -/
def Written.report (p : Written) : String × String :=
  let name := lower p.name
  (String.ofList name, String.ofList (if name == "charset".toList then lower p.value else p.value))

/-- The first parameter is `charset=utf-8` written one space after the `;`. -/
def Written.isUtf8Shorthand (p : Written) : Bool :=
  p.gap == 1 && lower p.name == "charset".toList && lower p.value == "utf-8".toList

/-- The reported parameters; see the module note on the `charset=utf-8` shorthand. -/
def report : List Written → List (String × String)
  | [] => []
  | [p] => [p.report]
  | p :: rest =>
    let first := if p.isUtf8Shorthand then
        ("charset", if p.quoted then "\"utf-" else "utf-8")
      else p.report
    first :: rest.map Written.report

/-! ### The whole value -/

/-- Splits a subtype at its last `+` that is not its first character. -/
def splitSuffix (sub : List Char) : List Char × Option (List Char) :=
  match sub with
  | [] => ([], none)
  | c :: rest =>
    let tail := rest.reverse
    if tail.contains '+' then
      let suffix := (tail.takeWhile (· != '+')).reverse
      let before := (tail.dropWhile (· != '+')).drop 1 |>.reverse
      (c :: before, some suffix)
    else (sub, none)

/-- Reads a Content-Type value. -/
def parse? (s : String) : Option MediaType :=
  let cs := s.toList
  let type := cs.takeWhile isTokenChar
  match cs.dropWhile isTokenChar with
  | '/' :: rest =>
    if type.isEmpty then none
    else
      let sub := rest.takeWhile isTokenChar
      let (subtype, suffix) := splitSuffix (lower sub)
      let build := fun params =>
        some { type := String.ofList (lower type), subtype := String.ofList subtype
               suffix := suffix.map String.ofList, params := report params }
      match rest.dropWhile isTokenChar with
      | [] => build []
      | ';' :: more =>
        if sub.isEmpty then none
        else (paramsFrom (more.length + 1) more).bind build
      | _ => none
  | _ => none

end MediaType

/-! ## Header maps -/

/-- The header name that bytes spell: 1 to 65535 token bytes, ASCII letters lowered. -/
def fieldNameOf? (bs : List UInt8) : Option String :=
  if bs.isEmpty || 65535 < bs.length || !bs.all isFieldNameByte then none
  else some (Latin1.decode (bs.map lowerByte))

/-- Values grouped by name, names in order of first appearance, each group newest first so that
adding a value takes no walk along its group. -/
structure FieldMap where
  groups : List (String × List (List UInt8)) := []
  deriving DecidableEq, Repr

namespace FieldMap

/-- Adds a value under a name, before the values it already has. -/
def prepend (m : FieldMap) (name : String) (value : List UInt8) : FieldMap :=
  if m.groups.any (·.1 == name) then
    ⟨m.groups.map fun g => if g.1 == name then (g.1, value :: g.2) else g⟩
  else ⟨m.groups ++ [(name, [value])]⟩

/-- The values stored under a name, newest first. -/
def values (m : FieldMap) (name : String) : List (List UInt8) :=
  ((m.groups.find? (·.1 == name)).map (·.2)).getD []

end FieldMap

/-- Header maps as version 1 of the `http` library makes them. -/
def Http.reference : Http where
  Map := FieldMap
  name? := fieldNameOf?
  isValue bs := bs.all isFieldValueByte
  withCapacity? n := if n + n / 3 ≤ 32768 then some {} else none
  append m k v := m.prepend k v
  getAll m k := (m.values k).reverse
  toList m := m.groups.flatMap fun g => g.2.reverse.map (g.1, ·)

/-- The libraries the program is run with. -/
def Libraries.reference : Libraries := ⟨MediaType.parse?, Http.reference⟩

end MimeMultipart
