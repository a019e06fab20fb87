/-!
# ISO-8859-1

Header names and values are read as ISO-8859-1: each byte is the character with the same
number. Encoding back succeeds exactly for characters up to U+00FF.
-/

namespace MimeMultipart.Latin1

/-- Each byte becomes the character U+0000 to U+00FF with its number. -/
def decode (bs : List UInt8) : String := String.ofList (bs.map fun b => Char.ofNat b.toNat)

def byte? (c : Char) : Option UInt8 := if c.toNat < 256 then some c.toNat.toUInt8 else none

/-- The bytes of a text whose characters are all at most U+00FF. -/
def encode? (s : String) : Option (List UInt8) := s.toList.mapM byte?

end MimeMultipart.Latin1
