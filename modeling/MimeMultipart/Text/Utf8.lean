/-!
# UTF-8

Strict decoding of UTF-8: the shortest form only, no surrogate halves and nothing above
U+10FFFF. A byte sequence is text exactly when it decodes.
-/

namespace MimeMultipart.Utf8

/-- A continuation byte, `10xxxxxx`. -/
def isTail (b : UInt8) : Bool := 0x80 ≤ b && b < 0xC0

/-- The allowed range of the second byte after a lead byte of three or four: it rules out
overlong forms, surrogate halves and code points above U+10FFFF. -/
def secondOk (lead b : UInt8) : Bool :=
  if lead = 0xE0 then 0xA0 ≤ b && b < 0xC0
  else if lead = 0xED then 0x80 ≤ b && b < 0xA0
  else if lead = 0xF0 then 0x90 ≤ b && b < 0xC0
  else if lead = 0xF4 then 0x80 ≤ b && b < 0x90
  else isTail b

def low (b : UInt8) : Nat := b.toNat % 64

/-- Decodes the characters of `bs` after the reversed prefix `acc`. -/
def decodeFrom : List UInt8 → List Char → Option (List Char)
  | [], acc => some acc.reverse
  | b :: rest, acc =>
    if b < 0x80 then decodeFrom rest (Char.ofNat b.toNat :: acc)
    else if b < 0xC2 then none
    else if b < 0xE0 then
      match rest with
      | c :: rest' =>
        if isTail c then decodeFrom rest' (Char.ofNat ((b.toNat % 32) * 64 + low c) :: acc)
        else none
      | [] => none
    else if b < 0xF0 then
      match rest with
      | c1 :: c2 :: rest' =>
        if secondOk b c1 && isTail c2 then
          decodeFrom rest' (Char.ofNat ((b.toNat % 16) * 4096 + low c1 * 64 + low c2) :: acc)
        else none
      | _ => none
    else if b < 0xF5 then
      match rest with
      | c1 :: c2 :: c3 :: rest' =>
        if secondOk b c1 && isTail c2 && isTail c3 then
          decodeFrom rest'
            (Char.ofNat ((b.toNat % 8) * 262144 + low c1 * 4096 + low c2 * 64 + low c3) :: acc)
        else none
      | _ => none
    else none

def decodeChars (bs : List UInt8) : Option (List Char) := decodeFrom bs []

/-- The text that `bs` encodes, if it is well-formed UTF-8. -/
def decode? (bs : List UInt8) : Option String := (decodeChars bs).map String.ofList

def encode (s : String) : List UInt8 := s.toUTF8.toList

end MimeMultipart.Utf8
