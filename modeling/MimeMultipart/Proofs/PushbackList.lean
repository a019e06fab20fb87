import MimeMultipart.Proofs.Stream
import MimeMultipart.Script.Stream
/-!
# A stream with pushback is a list with bytes put in front

The bytes a stream with pushback will still deliver form one list: its pending bytes, then what
its inner stream delivers. `Content` is that list, with the number of pending bytes at its
front, and `Content.run` answers the operations of a pushback script as list operations:
`unread bs` puts `bs` in front; a read of `n` takes the first `n` bytes off, and the pending
count falls by as many of them as were pending; reading all empties the list; looking for the
end answers whether the list is empty and keeps it, a byte looked at in the inner stream
becoming pending.

Over an inner stream that delivers `I` and does not fail, a stream with pushback answers every
script as the list does from `I` with nothing pending:

    runEach PushbackOp.run ops { inner := s } = runEach Content.run ops ⟨I, 0⟩   (runs_as_list)

The proof is a simulation. `Content.Shows` relates a stream with pushback to the list it
delivers; each operation keeps the relation and answers alike (`run_shows`), so a whole script
does (`runEach_shows`). The pending count rests on `gatherFrom_pending`: a loop of reads takes
its bytes from the pending ones first, whatever the inner stream does. One read of pending bytes
takes only a first piece of the ring buffer's front slice (`Pushback.read_of_ne_nil`), fewer bytes
than are pending once they wrap round the end of the buffer; the loops the operations run go on
until they have their count.
-/

namespace MimeMultipart

/-- What a stream with pushback holds, as a list: the bytes it will still deliver, the first
`pending` of them pushed back. -/
structure Content where
  bytes : List UInt8
  pending : Nat
  deriving DecidableEq, Repr

namespace Content

def run : PushbackOp → Content → Answer × Content
  | .unread bs, c => (.pending (c.pending + bs.length), ⟨bs ++ c.bytes, c.pending + bs.length⟩)
  | .read n, c =>
    (.bytes (c.bytes.take n),
      ⟨c.bytes.drop n, c.pending - min (c.bytes.take n).length c.pending⟩)
  | .readAll, c => (.bytes c.bytes, ⟨[], c.pending - min c.bytes.length c.pending⟩)
  | .atEnd, c =>
    (.atEnd c.bytes.isEmpty,
      ⟨c.bytes, if c.pending = 0 ∧ c.bytes ≠ [] then 1 else c.pending⟩)
  | .pending, c => (.pending c.pending, c)
  | .invalid reason, c => (.malformed reason, c)

/-- Bytes put back later are read before bytes put back earlier, and before the stream. -/
example : runEach run [.unread [108, 111, 32], .unread [104, 101, 108], .readAll]
    ⟨[119, 111], 0⟩ =
    [.pending 3, .pending 6, .bytes [104, 101, 108, 108, 111, 32, 119, 111]] := by rfl

end Content

/-! ## Where the pending bytes go -/

namespace Pushback

variable {σ : Type} [ByteReader σ]

/-- A loop of reads for `want` bytes takes them from the pending bytes first: afterwards the
pending bytes are those it did not take, whatever the inner stream delivers or fails. Each read
of pending bytes takes only a first piece of the front slice, so the loop may read them in
several pieces. -/
theorem gatherFrom_pending (p : Pushback σ) (want : Nat) (acc : List UInt8) :
    (ByteReader.gatherFrom p want acc).rest.pending.items = p.pending.items.drop want := by
  induction want using Nat.strongRecOn generalizing p acc with
  | ind want ih =>
    rw [ByteReader.gatherFrom.eq_def]
    by_cases hw : want = 0
    · simp [hw]
    · rw [if_neg hw]
      by_cases hnil : p.pending.items = []
      · -- nothing is pending: the inner stream answers, and nothing becomes pending
        rw [read_of_nil hw hnil, hnil, List.drop_nil]
        rcases ByteReader.read p.inner want with ⟨⟨_ | ⟨b, bs⟩⟩ | _, s'⟩
        · exact hnil
        · simpa [hnil] using ih _ (by omega) { p with inner := s' } ((b :: bs).reverseAux acc)
        · exact hnil
      · -- a first piece of the front slice is taken; the loop goes on from the bytes after it
        obtain ⟨b, bs, hbs, hlen⟩ := ByteDeque.take_front_eq_cons hnil hw
        rw [read_of_ne_nil hw hnil]
        simp only [hbs]
        rw [ih _ (by omega), ByteDeque.drainFront_items, List.drop_drop, ← hlen,
          Nat.add_sub_cancel' (by omega)]

/-- Three bytes pushed back, then six more: the buffer grows from 8 to 16 cells with the first
three where they were, and the six wrap round its end, so a read of four takes one byte. -/
example :
    let p := (({ inner := ({ data := [] } : Source) } : Pushback Source).unread
      [104, 105, 106]).unread [97, 98, 99, 100, 101, 102]
    p.pending.capacity = 16 ∧ p.pending.head = 15 ∧ (ByteReader.read p 4).1 = .bytes [97] := by
  decide

theorem readUpTo_pending (p : Pushback σ) (n : Nat) :
    (ByteReader.readUpTo p n).rest.pending.items = p.pending.items.drop n :=
  gatherFrom_pending p n []

theorem readToEnd_pending (p : Pushback σ) :
    (ByteReader.readToEnd p).rest.pending.items = [] := by
  rw [ByteReader.readToEnd, readUpTo_pending]
  exact List.drop_eq_nil_of_le (by
    show p.pending.items.length ≤ p.pending.items.length + ByteReader.bound p.inner + 1
    omega)

variable {Z : σ → List UInt8 → Prop}

/-- Looking for the end keeps the pending bytes; with none pending, the byte looked at, if
any, becomes pending. -/
theorem atEnd_pending (hZ : Streams Z) {p : Pushback σ} {xs : List UInt8} (h : Over Z p xs) :
    (p.atEnd).2.pending.items.length =
      if p.pending.items = [] ∧ xs ≠ [] then 1 else p.pending.items.length := by
  obtain ⟨ys, hys, rfl⟩ := h
  cases hp : p.pending.items with
  | cons x rest => simp [atEnd, hp]
  | nil =>
    obtain ⟨bs, s', hread, hlen, hpre, hne, -⟩ := hZ.read hys Nat.one_pos
    cases bs with
    | nil =>
      have hys0 : ys = [] := Classical.byContradiction fun hne' => hne hne' rfl
      simp [atEnd, hp, hread, hys0]
    | cons b bs =>
      have hys0 : ys ≠ [] :=
        List.ne_nil_of_length_pos (by have := hpre.length_le; simp at this; omega)
      simp [atEnd, hp, hread, hys0]

end Pushback

theorem Gathered.bytes?_of_count {σ : Type} {d : List UInt8} {n m : Nat} {rest : σ} :
    (Gathered.mk d (if n ≤ m then .filled else .ended) rest).bytes? = .ok d := by
  unfold Gathered.bytes?
  split <;> split at * <;> simp_all

/-! ## The simulation -/

namespace Content

variable {σ : Type} [ByteReader σ]

/-- The stream `p` delivers the bytes of `c`, the first `c.pending` of them being its pending
bytes. -/
def Shows (p : Pushback σ) (c : Content) : Prop :=
  Pushback.Over (Yields (σ := σ)) p c.bytes ∧ p.pending.items.length = c.pending

theorem Shows.pending_le {p : Pushback σ} {c : Content} (h : Shows p c) :
    c.pending ≤ c.bytes.length := by
  obtain ⟨⟨ys, -, hbytes⟩, hpending⟩ := h
  rw [← hpending, hbytes, List.length_append]
  omega

/-- One operation answers as the list does and keeps the stream showing the list. -/
theorem run_shows {p : Pushback σ} {c : Content} (h : Shows p c) (op : PushbackOp) :
    (op.run p).1 = (c.run op).1 ∧ Shows (op.run p).2 (c.run op).2 := by
  have hover := Pushback.streams_over (yields_streams (σ := σ))
  have hle := h.pending_le
  obtain ⟨hsh, hpending⟩ := h
  cases op with
  | unread bs =>
    refine ⟨?_, Pushback.over_unread hsh bs, ?_⟩
    · simp only [PushbackOp.run, run, Pushback.unread_pending, List.length_append, hpending]
      rw [Nat.add_comm]
    · simp only [PushbackOp.run, run, Pushback.unread_pending, List.length_append, hpending]
      omega
  | read n =>
    obtain ⟨p', hg, hsh', -⟩ := hover.readUpTo hsh n
    have hpend' : p'.pending.items = p.pending.items.drop n := by
      rw [← Pushback.readUpTo_pending p n, hg]
    simp only [PushbackOp.run, run, hg, Gathered.bytes?_of_count, Answer.ofRead]
    refine ⟨trivial, hsh', ?_⟩
    simp only [hpend', List.length_drop, List.length_take, hpending]
    omega
  | readAll =>
    obtain ⟨p', hg, hsh', -⟩ := hover.readToEnd hsh
    have hpend' : p'.pending.items = [] := by
      rw [← Pushback.readToEnd_pending p, hg]
    simp only [PushbackOp.run, run, hg, Gathered.bytes?, Answer.ofRead]
    refine ⟨trivial, hsh', ?_⟩
    simp only [hpend', List.length_nil]
    omega
  | atEnd =>
    obtain ⟨p', hat, hsh'⟩ := Pushback.atEnd_over yields_streams hsh
    have hlen := Pushback.atEnd_pending yields_streams hsh
    rw [hat] at hlen
    simp only [PushbackOp.run, run, hat]
    refine ⟨trivial, hsh', ?_⟩
    simp only [hlen, ← hpending, List.length_eq_zero_iff]
  | pending => exact ⟨by simp only [PushbackOp.run, run, hpending], hsh, hpending⟩
  | invalid reason => exact ⟨rfl, hsh, hpending⟩

/-- A script answers as the list does, by induction on its operations. -/
theorem runEach_shows :
    ∀ (ops : List PushbackOp) {p : Pushback σ} {c : Content}, Shows p c →
      runEach PushbackOp.run ops p = runEach run ops c
  | [], _, _, _ => rfl
  | op :: ops, _, _, h => by
    obtain ⟨hanswer, hshows⟩ := run_shows h op
    simp only [runEach, hanswer, runEach_shows ops hshows]

/-- Over an inner stream that delivers `I` in pieces of any sizes and does not fail, a stream
with pushback answers every script as the list with prepend does from `I` with nothing pending:
an `unread` puts its bytes in front and adds them to the pending count, a read of `n` gives the
first `n` bytes and lowers the pending count by those of them that were pending, looking for the
end answers whether the list is empty, and the pending count is answered as it stands. -/
theorem runs_as_list {s : σ} {I : List UInt8} (hs : Yields s I) (ops : List PushbackOp) :
    runEach PushbackOp.run ops ({ inner := s } : Pushback σ) = runEach run ops ⟨I, 0⟩ :=
  runEach_shows ops ⟨⟨I, hs, rfl⟩, rfl⟩

/-- Two bytes `wo` read one at a time under `hij` and then `abcdef` pushed back, which wrap round
the end of the buffer. -/
theorem runs_as_list_source :
    let src : Source := { data := [119, 111], chunk := some 1 }
    let ops : List PushbackOp := [.unread [104, 105, 106], .unread [97, 98, 99, 100, 101, 102],
      .read 4, .pending, .atEnd, .readAll, .atEnd]
    Yields src src.data ∧
      runEach PushbackOp.run ops ({ inner := src } : Pushback Source) =
        runEach run ops ⟨src.data, 0⟩ := by
  intro src ops
  exact ⟨Source.yields src rfl, runs_as_list (Source.yields src rfl) ops⟩

end Content

end MimeMultipart
