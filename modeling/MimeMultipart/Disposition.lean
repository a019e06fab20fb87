import MimeMultipart.Error
import MimeMultipart.Text.Blank
import MimeMultipart.Text.Percent
import MimeMultipart.Text.Utf8
/-!
# Content-Disposition

A Content-Disposition value is a disposition type, then parameters `; key=value`. Blanks
around the type, keys and token values are dropped, and type and keys are compared in ASCII
lower case. A value is a token up to the next `;`, or a quoted string in which a backslash
takes the next character literally; only blanks may follow a closing quote before the next
`;`. Of the parameters only `name`, `filename` and `filename*` are kept, the last of each
winning. A `filename` holding `%` is percent-decoded as UTF-8; a `filename*` is
`charset'language'value` with charset UTF-8 and a percent-encoded value, and wins over
`filename`.
-/

namespace MimeMultipart

/-- A parsed Content-Disposition: its type in lower case, and its name and file name. -/
structure Disposition where
  kind : String
  name : Option String
  filename : Option String
  deriving DecidableEq, Repr

namespace Disposition

def apostrophe : Char := Char.ofNat 39

def takeUntil (stop : Char) (cs : List Char) : List Char × List Char :=
  (cs.takeWhile (· != stop), cs.dropWhile (· != stop))

def lower (cs : List Char) : List Char := cs.map Char.toLower

/-- The rest of a quoted value after its opening quote, with the characters `acc` taken so
far in reverse: the value and the text from the next `;` on. -/
def quoted : List Char → List Char → Except ParseError (List Char × List Char)
  | [], _ => .error .unterminatedQuotedValue
  | '"' :: rest, acc =>
    let (trailing, after) := takeUntil ';' rest
    if (Blank.trimList trailing).isEmpty then .ok (acc.reverse, after)
    else .error .invalidQuotedValue
  | '\\' :: c :: rest, acc => quoted rest (c :: acc)
  | ['\\'], _ => .error .unterminatedQuotedValue
  | c :: rest, acc => quoted rest (c :: acc)

/-- A parameter value after its `=`: the value and the text from the next `;` on. -/
def value (cs : List Char) : Except ParseError (List Char × List Char) :=
  match Blank.trimFront cs with
  | '"' :: rest => quoted rest []
  | cs' =>
    let (token, after) := takeUntil ';' cs'
    let token := Blank.trimList token
    if token.contains '"' then .error .invalidQuotedValue else .ok (token, after)

/-- Percent-decodes the value of a filename field as UTF-8. -/
def percentDecode (field : FilenameField) (cs : List Char) : Except ParseError String :=
  match Percent.decode (Utf8.encode (String.ofList cs)) with
  | none => .error (.invalidPercentEncoding field)
  | some bs =>
    match Utf8.decode? bs with
    | none => .error (.notUtf8 field)
    | some s => .ok s

/-- A `filename` value, percent-decoded when it holds `%`. -/
def plainFilename (cs : List Char) : Except ParseError String :=
  if cs.contains '%' then percentDecode .plain cs else .ok (String.ofList cs)

/-- A `filename*` value `charset'language'value`, with charset UTF-8. -/
def extendedFilename (cs : List Char) : Except ParseError String :=
  let (charset, rest) := takeUntil apostrophe cs
  match rest with
  | _ :: rest' =>
    match (takeUntil apostrophe rest').2 with
    | _ :: encoded =>
      if lower charset == "utf-8".toList then percentDecode .extended encoded
      else .error .unsupportedCharset
    | [] => .error .invalidExtendedFilename
  | [] => .error .invalidExtendedFilename

structure Fields where
  name : Option String := none
  filename : Option String := none
  extended : Option String := none

/-- Keeps a parameter, decoding filenames. -/
def Fields.keep (f : Fields) (key raw : List Char) : Except ParseError Fields :=
  if key == "name".toList then .ok { f with name := some (String.ofList raw) }
  else if key == "filename".toList then
    (plainFilename raw).map fun v => { f with filename := some v }
  else if key == "filename*".toList then
    (extendedFilename raw).map fun v => { f with extended := some v }
  else .ok f

/-- The parameters from a `;` on; `fuel` bounds their count and is never the limit, as each
parameter takes at least one character. -/
def params : Nat → List Char → Fields → Except ParseError Fields
  | 0, _, f => .ok f
  | fuel + 1, ';' :: rest, f =>
    match Blank.trimFront rest with
    | [] => .ok f
    | body =>
      let (key, after) := takeUntil '=' body
      let key := lower (Blank.trimList key)
      match after with
      | '=' :: raw =>
        if key.isEmpty || key.contains ';' then .error .invalidDispositionParameter
        else
          match value raw with
          | .error e => .error e
          | .ok (v, more) =>
            match f.keep key v with
            | .error e => .error e
            | .ok f' => params fuel more f'
      | _ => .error .invalidDispositionParameter
  | _ + 1, _, f => .ok f

/-- Reads a Content-Disposition value. -/
def parse (s : String) : Except ParseError Disposition :=
  let (kind, rest) := takeUntil ';' s.toList
  let kind := lower (Blank.trimList kind)
  if kind.isEmpty then .error .invalidDisposition
  else
    (params (rest.length + 1) rest {}).map fun f =>
      { kind := String.ofList kind, name := f.name
        filename := match f.extended with | some e => some e | none => f.filename }

/-! ## Writing -/

/-- A parameter value as a quoted string, with quotes and backslashes escaped. -/
def quote (v : String) : String :=
  "\"" ++ String.join (v.toList.map fun c =>
    if c = '"' || c = '\\' then String.ofList ['\\', c] else String.ofList [c]) ++ "\""

/-- Writes a disposition type followed by `; key="value"` for each parameter. -/
def write (kind : String) (params : List (String × String)) : String :=
  kind ++ String.join (params.map fun p => "; " ++ p.1 ++ "=" ++ quote p.2)

end Disposition

end MimeMultipart
