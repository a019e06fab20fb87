import MimeMultipart.Boundary
/-!
# Layout of a whole message

What a multipart message consists of, stated on the whole byte string at once: the message
ends at the leftmost closing delimiter, after which comes the epilogue; inside that, the
preamble ends at the leftmost opening delimiter, and the rest is split into part segments at
each leftmost separator. Without an opening delimiter there are no parts.

`Boundary.assemble` writes a message from its pieces: the preamble, the opening delimiter, the
parts joined by separators, each its header lines, an empty line and its body, then the closing
delimiter and the epilogue.
-/

namespace MimeMultipart

/-- The pieces of a whole message: its preamble, each part's header block and body, and its
epilogue. -/
structure Layout where
  preamble : List UInt8
  segments : List (List UInt8)
  epilogue : List UInt8
  deriving DecidableEq, Repr

namespace Boundary

def layout (b : Boundary) (msg : List UInt8) : Layout :=
  let (inside, epilogue) := (b.closing.cut msg).getD (msg, [])
  match b.opening.cut inside with
  | none => ⟨inside, [], epilogue⟩
  | some (preamble, rest) => ⟨preamble, b.interPart.split rest, epilogue⟩

/-- The text of a part: each header as `name:value` and CRLF, an empty line, the body. -/
def partText (headers : List (List UInt8 × List UInt8)) (body : List UInt8) : List UInt8 :=
  (headers.flatMap fun h => h.1 ++ [58] ++ h.2 ++ crlf) ++ crlf ++ body

def assemble (b : Boundary) (preamble : List UInt8)
    (parts : List (List (List UInt8 × List UInt8) × List UInt8)) (epilogue : List UInt8) :
    List UInt8 :=
  preamble ++ b.opening.bytes ++
    b.interPart.bytes.intercalate (parts.map fun p => partText p.1 p.2) ++
    b.closing.bytes ++ epilogue

end Boundary

end MimeMultipart
