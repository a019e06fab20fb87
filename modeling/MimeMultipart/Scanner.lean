import MimeMultipart.Delimiter
import MimeMultipart.Stream.Pushback
/-!
# Delimiter scanners

A scanner reads a stream up to the first occurrence of a delimiter `d` and then reports the
end of its data. It keeps a window of at most `2 * |d|` bytes read ahead and searches it each
time it tops it up: it delivers a byte only once at least `|d|` bytes after it have been read,
or once the delimiter or the end of the stream has been seen. Bytes read past the delimiter
are pushed back onto its source, so `intoRemaining` gives the stream right after the
delimiter.

A top-up that fails keeps the bytes that came before the failure, unsearched. The next
request delivers from them, all but the last `|d|`, before it tops up again; so after a failing
source the bytes delivered need not stop before the delimiter.
-/

namespace MimeMultipart

/-- Where a scanner stands: nothing read yet; `scanning`, the delimiter not seen and the source
not ended (after a failed top-up the window holds bytes not yet searched); `drained`, the source
ended without the delimiter and the window holds the last bytes; `located`, the delimiter seen and
the window holding the bytes before it; `closed`, every byte before the delimiter, or before the
end, delivered. -/
inductive Scanner.Phase where
  | fresh
  | scanning
  | drained
  | located
  | closed (found : Bool)
  deriving DecidableEq, Repr

/-- A reader of `source` up to the first occurrence of `delimiter`, with the bytes it has read
ahead and not yet delivered in `window`. -/
structure Scanner (σ : Type) where
  delimiter : Delimiter
  source : Pushback σ
  window : List UInt8 := []
  phase : Scanner.Phase := .fresh

namespace Scanner

variable {σ : Type}

def withSource (source : Pushback σ) (d : Delimiter) : Scanner σ :=
  { delimiter := d, source }

def new (source : σ) (d : Delimiter) : Scanner σ := withSource { inner := source } d

def found (sc : Scanner σ) : Bool :=
  match sc.phase with
  | .located | .closed true => true
  | _ => false

/-- Every byte before the delimiter or the end has been delivered. -/
def finished (sc : Scanner σ) : Bool :=
  match sc.phase with
  | .closed _ => true
  | _ => false

/-- The stream under the scanner, without the bytes pushed back onto it. -/
def base (sc : Scanner σ) : σ := sc.source.inner

/-- Releases the window once everything before the delimiter or the end is delivered. -/
def close (sc : Scanner σ) : Scanner σ := { sc with window := [], phase := .closed sc.found }

/-- Delivers at most `n` of the first `limit` bytes of the window; the scanner closes when
its window runs empty after the delimiter or the end was seen. -/
def serve (sc : Scanner σ) (n limit : Nat) : Delivery × Scanner σ :=
  let k := min n limit
  let sc' := { sc with window := sc.window.drop k }
  let last := sc'.window.isEmpty && (sc.phase == .located || sc.phase == .drained)
  (.bytes (sc.window.take k), if last then sc'.close else sc')

/-- Answers a request from the window without reading: all of it once the delimiter or the
end was seen, else all but its last `|d|` bytes. -/
def deliver (sc : Scanner σ) (n : Nat) : Delivery × Scanner σ :=
  match sc.phase with
  | .located | .drained =>
    if sc.window.isEmpty then (.bytes [], sc.close) else sc.serve n sc.window.length
  | .scanning => sc.serve n (sc.window.length - sc.delimiter.length)
  | _ => (.bytes [], sc)

@[simp] theorem found_close (sc : Scanner σ) : sc.close.found = sc.found := by
  cases sc with
  | mk d src w ph =>
    cases ph with
    | closed b => cases b <;> rfl
    | _ => rfl

@[simp] theorem finished_close (sc : Scanner σ) : sc.close.finished = true := rfl

@[simp] theorem window_close (sc : Scanner σ) : sc.close.window = [] := rfl

@[simp] theorem phase_withSource (src : Pushback σ) (d : Delimiter) :
    (withSource src d).phase = .fresh := rfl

variable [ByteReader σ]

/-- Tops the window up to `2 * |d|` bytes and searches it. Bytes after an occurrence go back
to the source. Answers `false` when the source failed; the bytes read before stay. -/
def refill (sc : Scanner σ) : Bool × Scanner σ :=
  let g := ByteReader.readUpTo sc.source (2 * sc.delimiter.length - sc.window.length)
  let window := sc.window ++ g.data
  match g.ending with
  | .failed => (false, { sc with source := g.rest, window, phase := .scanning })
  | ending =>
    match sc.delimiter.find window with
    | some pos =>
      (true, { sc with source := g.rest.unread (window.drop (pos + sc.delimiter.length))
                       window := window.take pos, phase := .located })
    | none =>
      (true, { sc with source := g.rest, window
                       phase := if ending = .ended then .drained else .scanning })

def refillThenDeliver (sc : Scanner σ) (n : Nat) : Delivery × Scanner σ :=
  match sc.refill with
  | (false, sc') => (.failed, sc')
  | (true, sc') => sc'.deliver n

/-- Answers one request for at most `n` bytes. -/
def read (sc : Scanner σ) (n : Nat) : Delivery × Scanner σ :=
  if n = 0 then (.bytes [], sc)
  else
    match sc.phase with
    | .closed _ => (.bytes [], sc)
    | .located | .drained => sc.deliver n
    | .scanning =>
      if sc.delimiter.length < sc.window.length then sc.deliver n else sc.refillThenDeliver n
    | .fresh => sc.refillThenDeliver n

instance : ByteReader (Scanner σ) where
  read := read
  bound sc := if sc.finished then 0 else sc.window.length + ByteReader.bound sc.source

def readByte (sc : Scanner σ) : Except Failure (Option UInt8) × Scanner σ :=
  match sc.read 1 with
  | (.failed, sc') => (.error .source, sc')
  | (.bytes [], sc') => (.ok none, sc')
  | (.bytes (b :: _), sc') => (.ok (some b), sc')

/-- Reads to the end and counts the bytes. -/
def drain (sc : Scanner σ) : Except Failure Nat × Scanner σ :=
  let g := ByteReader.readToEnd sc
  ((g.bytes?).map List.length, g.rest)

/-- Reads to the end and gives the stream after the delimiter, with the bytes read past it
pushed back. On a failure only the stream under the scanner is left. -/
def intoRemaining (sc : Scanner σ) : Except (Failure × σ) (Pushback σ) :=
  match sc.drain with
  | (.error f, sc') => .error (f, sc'.base)
  | (.ok _, sc') => .ok sc'.source

end Scanner

end MimeMultipart
