/-!
# Percent-encoding

`%HH` with two hexadecimal digits stands for the byte `HH`; every other byte stands for
itself. A `%` without two hexadecimal digits after it makes the text invalid.

`Encodes e bs` says which texts `e` are percent-encodings of the bytes `bs`: each byte written
as `%` and its two digits, in either case, or, if it is ASCII and not `%`, as its own character.
-/

namespace MimeMultipart.Percent

def hexValue? (b : UInt8) : Option UInt8 :=
  if 48 ≤ b && b ≤ 57 then some (b - 48)
  else if 65 ≤ b && b ≤ 70 then some (b - 55)
  else if 97 ≤ b && b ≤ 102 then some (b - 87)
  else none

/-- The bytes a percent-encoded byte string stands for. -/
def decode : List UInt8 → Option (List UInt8)
  | [] => some []
  | b :: rest =>
    if b = 37 then
      match rest with
      | h :: l :: rest' =>
        match hexValue? h, hexValue? l with
        | some hi, some lo => (decode rest').map ((hi * 16 + lo) :: ·)
        | _, _ => none
      | _ => none
    else (decode rest).map (b :: ·)

/-! ## Writing -/

/-- The hexadecimal digit of a value below 16, in upper or lower case. -/
def hexDigit (upper : Bool) (v : Nat) : Char :=
  if v < 10 then Char.ofNat (48 + v) else Char.ofNat ((if upper then 55 else 87) + v)

/-- `e` is a percent-encoded text of the bytes `bs`: each byte is written as `%` and its two
hexadecimal digits, each in either case, or, when it is ASCII and not `%`, as its own
character. -/
inductive Encodes : List Char → List UInt8 → Prop
  | nil : Encodes [] []
  | plain {c : Char} {e : List Char} {bs : List UInt8} (hascii : c.toNat < 0x80) (hpct : c ≠ '%')
      (h : Encodes e bs) : Encodes (c :: e) (UInt8.ofNat c.toNat :: bs)
  | escaped {b : UInt8} {e : List Char} {bs : List UInt8} (hi lo : Bool) (h : Encodes e bs) :
      Encodes ('%' :: hexDigit hi (b.toNat / 16) :: hexDigit lo (b.toNat % 16) :: e) (b :: bs)

end MimeMultipart.Percent
