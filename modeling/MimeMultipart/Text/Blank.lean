/-!
# Blank characters

The characters with the Unicode `White_Space` property, and trimming by them. Header names and
values, Content-Disposition fields and their parameters are trimmed by this class. Unlike
`Char.isWhitespace` it also holds the next-line control U+0085, the no-break space U+00A0 and
the blanks above U+1000.
-/

namespace MimeMultipart.Blank

/-- `c` has the Unicode `White_Space` property: tab to carriage return, space, U+0085, U+00A0,
U+1680, U+2000 to U+200A, the line and paragraph separators, U+202F, U+205F and U+3000. -/
def isBlank (c : Char) : Bool :=
  let n := c.toNat
  (0x09 ≤ n && n ≤ 0x0D) || n == 0x20 || n == 0x85 || n == 0xA0 || n == 0x1680 ||
    (0x2000 ≤ n && n ≤ 0x200A) || n == 0x2028 || n == 0x2029 || n == 0x202F ||
    n == 0x205F || n == 0x3000

def trimFront (cs : List Char) : List Char := cs.dropWhile isBlank

def trimBack (cs : List Char) : List Char := (cs.reverse.dropWhile isBlank).reverse

def trimList (cs : List Char) : List Char := trimBack (trimFront cs)

def trim (s : String) : String := String.ofList (trimList s.toList)

end MimeMultipart.Blank
