import MimeMultipart.Stream.Reader
/-!
# Sources

A source hands out a fixed byte string in pieces of at most `chunk` bytes. At the end of the
data it answers the end, or, when it `fails`, a failure to every further request.
-/

namespace MimeMultipart

/-- A byte string read in pieces, which may fail at its end: `data` holds the bytes not yet read,
`chunk` the largest piece one request returns (`none` or zero leaves it uncapped), `fails` whether
requests at the end of the data fail instead of answering the end, and `left` the number of bytes
not yet read, kept so that it is known without counting them. -/
structure Source where
  data : List UInt8
  chunk : Option Nat := none
  fails : Bool := false
  left : Nat := data.length
  left_eq : left = data.length := by rfl
  deriving DecidableEq

namespace Source

/-- How many bytes a request for `n` returns while data remains. -/
def piece (s : Source) (n : Nat) : Nat :=
  match s.chunk with
  | some (c + 1) => min n (c + 1)
  | _ => n

def read (s : Source) (n : Nat) : Delivery × Source :=
  if n = 0 then (.bytes [], s)
  else
    match s.data with
    | [] => (if s.fails then .failed else .bytes [], s)
    | _ :: _ =>
      (.bytes (s.data.take (s.piece n)),
        { s with data := s.data.drop (s.piece n), left := s.left - s.piece n
                 left_eq := by rw [List.length_drop, s.left_eq] })

instance : ByteReader Source where
  read := read
  bound s := s.left

theorem bound_eq (s : Source) : ByteReader.bound s = s.data.length := s.left_eq

end Source

end MimeMultipart
