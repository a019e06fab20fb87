import MimeMultipart.Delimiter
/-!
# Boundaries

A multipart boundary token `B` gives three delimiters on the wire: the opening `--B` CRLF
before the first part, the separator CRLF `--B` CRLF between parts, and the closing
CRLF `--B--` after the last part.
-/

namespace MimeMultipart

/-- The boundary token of a multipart message; it may be empty. -/
structure Boundary where
  token : List UInt8
  deriving DecidableEq, Repr

namespace Boundary

def crlf : List UInt8 := [13, 10]

def dashes : List UInt8 := [45, 45]

/-- `--B` CRLF: where the first part starts. -/
def opening (b : Boundary) : Delimiter := ⟨dashes ++ b.token ++ crlf, by simp [dashes]⟩

/-- CRLF `--B` CRLF: where one part ends and the next starts. -/
def interPart (b : Boundary) : Delimiter := ⟨crlf ++ dashes ++ b.token ++ crlf, by simp [crlf]⟩

/-- CRLF `--B--`: where the last part ends. -/
def closing (b : Boundary) : Delimiter := ⟨crlf ++ dashes ++ b.token ++ dashes, by simp [crlf]⟩

end Boundary

end MimeMultipart
