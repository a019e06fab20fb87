import MimeMultipart.Scanner
/-!
# Segments

A stream read as the pieces between occurrences of a delimiter: one scanner reads the first
piece, and while it found the delimiter, a scanner over what follows reads the next. The pieces
are those that `Delimiter.split` cuts from the whole byte string.
-/

namespace MimeMultipart

namespace Scanner

variable {σ : Type} [ByteReader σ]

/-- Reads the pieces after those in `acc`, starting with the one `sc` bounds; `fuel` is never
the limit, as each further piece follows a delimiter read from the stream. -/
def segmentsFrom (d : Delimiter) :
    Nat → Scanner σ → List (List UInt8) → Except Failure (List (List UInt8))
  | 0, _, acc => .ok acc.reverse
  | fuel + 1, sc, acc =>
    let g := ByteReader.readToEnd sc
    match g.bytes? with
    | .error f => .error f
    | .ok piece =>
      if g.rest.found then
        match g.rest.intoRemaining with
        | .error (f, _) => .error f
        | .ok rest => segmentsFrom d fuel (withSource rest d) (piece :: acc)
      else .ok (piece :: acc).reverse

/-- Reads a stream as the pieces between occurrences of `d`. -/
def segments (src : σ) (d : Delimiter) : Except Failure (List (List UInt8)) :=
  let sc := Scanner.new src d
  segmentsFrom d (ByteReader.bound sc + 1) sc []

end Scanner

end MimeMultipart
