import MimeMultipart.Stream.Deque
import MimeMultipart.Stream.Reader
/-!
# Pushback

A stream with bytes pushed back in front of it: the pending bytes are read first, and
`unread` puts bytes before those already pending. The pending bytes are kept in a ring buffer
(`ByteDeque`), and a read of them takes at most its front slice, so it may bring fewer bytes
than are pending. `atEnd` looks one byte ahead and keeps it pending.
-/

namespace MimeMultipart

/-- A stream `inner` with the bytes `pending` pushed back in front of it. -/
structure Pushback (σ : Type) where
  pending : ByteDeque := .empty
  inner : σ

namespace Pushback

variable {σ : Type}

/-- Puts `bs` in front of the pending bytes: room is made for all of them, and they are pushed
in front one at a time from the last. -/
def unread (p : Pushback σ) (bs : List UInt8) : Pushback σ :=
  { p with pending := bs.foldr (fun b d => d.pushFront b) (p.pending.reserve bs.length) }

@[simp] theorem unread_pending (p : Pushback σ) (bs : List UInt8) :
    (p.unread bs).pending.items = bs ++ p.pending.items := by
  simp [unread]

@[simp] theorem unread_inner (p : Pushback σ) (bs : List UInt8) :
    (p.unread bs).inner = p.inner := rfl

variable [ByteReader σ]

/-- Answers a request from the front slice of the pending bytes, or from the inner stream when
none are pending. -/
def read (p : Pushback σ) (n : Nat) : Delivery × Pushback σ :=
  if n = 0 then (.bytes [], p)
  else
    match p.pending.items with
    | [] =>
      let r := ByteReader.read p.inner n
      (r.1, { p with inner := r.2 })
    | _ =>
      let front := p.pending.frontSlice
      let k := min front.length n
      (.bytes (front.take k), { p with pending := p.pending.drainFront k })

instance : ByteReader (Pushback σ) where
  read := read
  bound p := p.pending.items.length + ByteReader.bound p.inner

/-- Whether no byte follows; a byte read to find out is pushed back. -/
def atEnd (p : Pushback σ) : Except Failure Bool × Pushback σ :=
  match p.pending.items with
  | _ :: _ => (.ok false, p)
  | [] =>
    match ByteReader.read p.inner 1 with
    | (.failed, s) => (.error .source, { p with inner := s })
    | (.bytes [], s) => (.ok true, { p with inner := s })
    | (.bytes (b :: _), s) => (.ok false, { pending := p.pending.pushFront b, inner := s })

variable {p : Pushback σ} {n : Nat}

theorem read_of_nil (hn : n ≠ 0) (hp : p.pending.items = []) :
    ByteReader.read p n =
      ((ByteReader.read p.inner n).1, { p with inner := (ByteReader.read p.inner n).2 }) := by
  simp [ByteReader.read, read, hn, hp]

/-- With bytes pending, a read takes the first bytes of the front slice, as many as it has
or as were asked for. -/
theorem read_of_ne_nil (hn : n ≠ 0) (hp : p.pending.items ≠ []) :
    ByteReader.read p n =
      (.bytes (p.pending.items.take (min p.pending.frontSlice.length n)),
        { p with pending := p.pending.drainFront (min p.pending.frontSlice.length n) }) := by
  rw [← ByteDeque.frontSlice_take (Nat.min_le_left _ _)]
  show read p n = _
  unfold read
  rw [if_neg hn]
  split
  · contradiction
  · rfl

end Pushback

end MimeMultipart
