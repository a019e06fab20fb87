import MimeMultipart.Error
/-!
# Byte streams as values

A byte stream is a state that answers read requests: `ByteReader.read s n` asks for at most
`n` bytes and gives the bytes (none at all meaning the end of the data) or a failure, with the
state after the request. `ByteReader.bound s` is at least the number of bytes the stream can
still deliver; it bounds every loop that reads to the end.

`readUpTo` repeats requests until it has the wanted count, the stream ends or it fails;
`readToEnd` reads until the end. A failure keeps the bytes gathered before it, so callers
decide whether they are lost.
-/

namespace MimeMultipart

/-- What one read request brings back: bytes, at most as many as asked for, none at all meaning
the end of the data; or a failure of the source. -/
inductive Delivery where
  | bytes (data : List UInt8)
  | failed
  deriving DecidableEq, Repr

/-- A stream of bytes whose state is a value: `read` answers a request for at most `n` bytes,
and `bound` is at least the number of bytes the stream can still deliver. -/
class ByteReader (σ : Type) where
  read : σ → Nat → Delivery × σ
  bound : σ → Nat

/-- How a loop of read requests stopped: at the wanted count, at the end of the data (a request
brought back no bytes), or on a failure. -/
inductive Ending where
  | filled
  | ended
  | failed
  deriving DecidableEq, Repr

/-- The bytes a loop of requests gathered, why it stopped, and the stream after it. -/
structure Gathered (σ : Type) where
  data : List UInt8
  ending : Ending
  rest : σ

/-- The gathered bytes, unless the loop stopped on a failure. -/
def Gathered.bytes? {σ : Type} (g : Gathered σ) : Except Failure (List UInt8) :=
  match g.ending with
  | .failed => .error .source
  | _ => .ok g.data

namespace ByteReader

variable {σ : Type} [ByteReader σ]

/-- Every request for `n` bytes brings at most `n`, as the contract of a reader requires. -/
def Capped (σ : Type) [ByteReader σ] : Prop :=
  ∀ (s : σ) (n : Nat) (bs : List UInt8) (s' : σ), read s n = (.bytes bs, s') → bs.length ≤ n

/-- Requests bytes until `want` more have come, the data ends or a request fails, after the
bytes `acc` gathered so far, kept in reverse. -/
def gatherFrom (s : σ) (want : Nat) (acc : List UInt8) : Gathered σ :=
  if want = 0 then ⟨acc.reverse, .filled, s⟩
  else
    match read s want with
    | (.failed, s') => ⟨acc.reverse, .failed, s'⟩
    | (.bytes [], s') => ⟨acc.reverse, .ended, s'⟩
    | (.bytes (b :: bs), s') => gatherFrom s' (want - (bs.length + 1)) (List.reverseAux (b :: bs) acc)
termination_by want
decreasing_by omega

def readUpTo (s : σ) (n : Nat) : Gathered σ := gatherFrom s n []

def readToEnd (s : σ) : Gathered σ := readUpTo s (bound s + 1)

/-- Reads `n` bytes as `readUpTo` does, or, with `none`, to the end. -/
def readSome (s : σ) : Option Nat → Gathered σ
  | some n => readUpTo s n
  | none => readToEnd s

end ByteReader

end MimeMultipart
