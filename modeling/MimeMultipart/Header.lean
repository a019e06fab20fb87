import MimeMultipart.Text.Blank
/-!
# Headers

A header is a name and a raw value, both as read (ISO-8859-1 decoded, untrimmed). A list of
headers is looked up by name: a header answers to a name when its own name, with blanks
trimmed, equals it in ASCII case-insensitive comparison. `get` gives the first such value,
`getAll` all of them in order.
-/

namespace MimeMultipart

/-- One header line: the text before the first `:` and the text after it. -/
structure Header where
  name : String
  value : String
  deriving DecidableEq, Repr

def sameUpToCase (a b : String) : Bool :=
  a.toList.map Char.toLower == b.toList.map Char.toLower

namespace Header

def trimmedValue (h : Header) : String := Blank.trim h.value

def isNamed (h : Header) (query : String) : Bool := sameUpToCase (Blank.trim h.name) query

def display (h : Header) : String := h.name ++ ":" ++ h.value

end Header

/-- The headers of a part, in the order read. -/
structure Headers where
  entries : List Header := []
  deriving DecidableEq, Repr

namespace Headers

def push (hs : Headers) (h : Header) : Headers := ⟨hs.entries ++ [h]⟩

@[simp] theorem entries_push (hs : Headers) (h : Header) : (hs.push h).entries = hs.entries ++ [h] :=
  rfl

def size (hs : Headers) : Nat := hs.entries.length

/-- The value of the first header answering to `query`. -/
def get (hs : Headers) (query : String) : Option String :=
  (hs.entries.find? (·.isNamed query)).map (·.value)

/-- The values of all headers answering to `query`, in order. -/
def getAll (hs : Headers) (query : String) : List String :=
  (hs.entries.filter (·.isNamed query)).map (·.value)

end Headers

end MimeMultipart
