import MimeMultipart.Proofs.HeaderBlock
import MimeMultipart.Proofs.Reading
/-!
# Splitting a message, against its layout

A message over a stream of the bytes `msg` reads as the layout of `msg` says
(`Boundary.layout`): the closing delimiter bounds the message, the opening delimiter ends the
preamble, the separators end the parts. `reading_follows_layout` states it for every run of calls
and every chunking of the source, without limits: the message answers every call as the cursor
over the layout answers it, and afterwards hands on the epilogue.

The proof is a simulation. `Mirrors` relates the message to the cursor: the scanner of the
current segment, stacked on the scanner of the closing delimiter, still delivers what the cursor
has left of the preamble or the body, and after its delimiter leaves the segments the cursor has
ahead. Each call keeps the relation and answers alike (`call_mirrors`); for a move this rests on
`enter_mirrors`, which reads the next part's header block with `readBlock_answers`. By
induction over the calls the run keeps it (`calls_mirrors`), and from any state the epilogue is
what follows the closing delimiter (`intoEpilogue_mirrors`).
-/

namespace MimeMultipart

section Reads

variable {σ : Type} [ByteReader σ] {Y : σ → List UInt8 → Prop}

/-- A read of some bytes, or of all, from a stream that does not fail. -/
theorem Streams.readSome (hY : Streams Y) {s : σ} {xs : List UInt8} (h : Y s xs)
    (n : Option Nat) :
    (ByteReader.readSome s n).bytes? = .ok (Cursor.readFrom xs n).1 ∧
      Y (ByteReader.readSome s n).rest (Cursor.readFrom xs n).2 := by
  cases n with
  | none =>
    obtain ⟨s', hg, hs', -⟩ := hY.readToEnd h
    simp [ByteReader.readSome, hg, Gathered.bytes?, Cursor.readFrom, hs']
  | some n =>
    obtain ⟨s', hg, hs', -⟩ := hY.readUpTo h n
    refine ⟨?_, by simpa [ByteReader.readSome, hg, Cursor.readFrom] using hs'⟩
    have hend : (if n ≤ xs.length then Ending.filled else .ended) ≠ .failed := by split <;> simp
    generalize (if n ≤ xs.length then Ending.filled else .ended) = e at hg hend
    cases e <;> simp_all [ByteReader.readSome, Gathered.bytes?, Cursor.readFrom]

end Reads

/-- The layout of a message, by the leftmost occurrences of its delimiters. -/
theorem Boundary.layout_eq (b : Boundary) (msg : List UInt8) :
    b.layout msg =
      { preamble := b.opening.before (b.closing.before msg)
        segments := (b.opening.after (b.closing.before msg)).elim [] b.interPart.split
        epilogue := (b.closing.after msg).getD [] } := by
  unfold Boundary.layout
  rw [Delimiter.cut_getD]
  dsimp only
  rw [Delimiter.cut_eq]
  cases h : b.opening.after (b.closing.before msg) with
  | none => simp [Delimiter.before_of_after_none h]
  | some R => rfl

/-- A move of the cursor that gives headers enters the body of one more part. -/
theorem Cursor.body_of_advance {L : Limits} {c c' : Cursor} {hs : Headers}
    (h : c.advance L = (.ok (some hs), c')) :
    c'.yielded = c.yielded + 1 ∧ ∃ body, c'.stage = .body body := by
  unfold Cursor.advance Cursor.enter at h
  repeat' split at h
  all_goals simp only [Prod.mk.injEq, reduceCtorEq, false_and, Except.ok.injEq,
    Option.some.injEq] at h
  obtain ⟨-, rfl⟩ := h
  exact ⟨rfl, _, rfl⟩

namespace Message

variable {ρ : Type} {Z : ρ → List UInt8 → Prop} {msg : List UInt8}

/-- The streams inside the closing delimiter of a message over `msg` with boundary `b`. -/
def Inside (Z : ρ → List UInt8 → Prop) (b : Boundary) (msg : List UInt8) (sc : Scanner ρ)
    (U : List UInt8) : Prop :=
  Scanner.Tracks Z sc U (b.closing.after msg)

/-- The message `m`, with boundary `b` and limits `L`, over a stream that `Z` describes as `msg`,
stands where the cursor `c` stands: the same parts were taken, and the scanner of the current
segment delivers what the cursor has left and leaves the segments the cursor has ahead. -/
def Mirrors (Z : ρ → List UInt8 → Prop) (b : Boundary) (msg : List UInt8) (L : Limits)
    (m : Message ρ) (c : Cursor) : Prop :=
  m.boundary = b ∧ m.limits = L ∧ m.yielded = c.yielded ∧
  match m.stage, c.stage with
  | .preamble seg, .preamble left =>
    ∃ O, Scanner.Tracks (Inside Z b msg) seg left O ∧ O.elim [] b.interPart.split = c.ahead
  | .body bd, .body left =>
    ∃ O, Pushback.Over (fun sc U => Scanner.Tracks (Inside Z b msg) sc U O) bd left ∧
      O.elim [] b.interPart.split = c.ahead
  | .exhausted rest, .exhausted => ∃ X, Pushback.Over (Inside Z b msg) rest X
  | .poisoned _, .poisoned => True
  | _, _ => False

theorem mirrors_start {src : ρ} (h : Z src msg) (b : Boundary) (L : Limits) :
    Mirrors Z b msg L (ofBoundary src b L) (Cursor.start (b.layout msg)) := by
  -- the closing scanner bounds the message; the opening scanner reads the preamble inside it
  have hclosing : Inside Z b msg (Scanner.new src b.closing) (b.closing.before msg) :=
    Scanner.tracks_withSource ⟨msg, h, rfl⟩ b.closing
  have hopening := Scanner.tracks_withSource
    (show Pushback.Over (Inside Z b msg) { inner := Scanner.new src b.closing }
      (b.closing.before msg) from ⟨_, hclosing, rfl⟩) b.opening
  rw [Boundary.layout_eq]
  exact ⟨rfl, rfl, rfl, _, hopening, rfl⟩

variable [ByteReader ρ]

/-- Moving past a segment whose scanner leaves `O` takes the next segment of `O`, as the cursor
does with the segments it has ahead. -/
theorem enter_mirrors (hZ : Streams Z) {m : Message ρ} {c : Cursor} {seg : Segment ρ}
    {U : List UInt8} {O : Option (List UInt8)} (hy : m.yielded = c.yielded)
    (hseg : Scanner.Tracks (Inside Z m.boundary msg) seg U O)
    (hahead : O.elim [] m.boundary.interPart.split = c.ahead) :
    (m.enter seg).1 = (c.enter m.limits).1 ∧
      Mirrors Z m.boundary msg m.limits (m.enter seg).2 (c.enter m.limits).2 := by
  have hZi : Streams (Inside Z m.boundary msg) := Scanner.streams_tracks hZ _
  -- the rest of the segment is skipped, and what follows its delimiter is handed on
  obtain ⟨seg', hdrain, hfin, hdone⟩ := Scanner.drain_tracks hZi hseg
  have hfound := (Scanner.finished_of_tracks hdone hfin).2
  obtain ⟨rest, hrem, hrest⟩ := Scanner.intoRemaining_tracks hZi hdone
  cases O with
  | none =>
    simp only [Option.elim_none] at hahead
    simp only [enter, hdrain, hrem, hfound, Option.isSome_none, Bool.not_false, ↓reduceIte,
      Cursor.enter, ← hahead]
    exact ⟨trivial, rfl, rfl, hy, _, hrest⟩
  | some R =>
    rw [Option.elim_some, Delimiter.split_eq] at hahead
    simp only [Option.getD_some] at hrest
    simp only [enter, hdrain, hrem, hfound, Option.isSome_some, Bool.not_true,
      Bool.false_eq_true, ↓reduceIte, Cursor.enter, ← hahead, hy]
    by_cases hallow : m.limits.allowsPart c.yielded
    · have hblk := HeaderBlock.readBlock_answers (Scanner.streams_tracks hZi _)
        (Scanner.tracks_withSource hrest m.boundary.interPart) m.limits
      simp only [hallow, Bool.not_true, Bool.false_eq_true, ↓reduceIte]
      cases href : Headers.ofBlockBytes m.limits (m.boundary.interPart.before R) with
      | error f =>
        obtain ⟨t, hr⟩ := (href ▸ hblk).of_error
        simp only [hr, poison]
        exact ⟨trivial, rfl, rfl, hy, trivial⟩
      | ok p =>
        obtain ⟨hs, B⟩ := p
        obtain ⟨body, hr, hbody⟩ := (href ▸ hblk).of_ok
        simp only [hr]
        exact ⟨trivial, rfl, rfl, rfl, _, hbody, rfl⟩
    · simp only [hallow, Bool.not_false, ↓reduceIte]
      exact ⟨trivial, rfl, rfl, rfl, _, hrest⟩

variable {b : Boundary} {L : Limits}

/-- Moving to the next part keeps the message where the cursor is. -/
theorem advance_mirrors (hZ : Streams Z) {m : Message ρ} {c : Cursor}
    (h : Mirrors Z b msg L m c) :
    m.advance.1 = (c.advance L).1 ∧ Mirrors Z b msg L m.advance.2 (c.advance L).2 := by
  obtain ⟨rfl, rfl, hy, hst⟩ := h
  cases hs : m.stage <;> cases hc : c.stage <;> simp only [hs, hc] at hst
  · -- from the preamble
    obtain ⟨O, hseg, hahead⟩ := hst
    simp only [advance, hs, Cursor.advance, hc]
    exact enter_mirrors hZ hy hseg hahead
  · -- from a part: its body is read to its end first
    obtain ⟨O, hbody, hahead⟩ := hst
    obtain ⟨bd', hg, ⟨ys, hys, -⟩, -⟩ :=
      (Pushback.streams_over (Scanner.streams_tracks (Scanner.streams_tracks hZ _) O)).readToEnd hbody
    simp only [advance, hs, hg, Cursor.advance, hc]
    exact enter_mirrors hZ hy hys hahead
  · simp only [advance, hs, Cursor.advance, hc]
    exact ⟨trivial, rfl, rfl, hy, by simpa [hs, hc] using hst⟩
  · simp only [advance, hs, Cursor.advance, hc]
    exact ⟨trivial, rfl, rfl, hy, by simp [hc]⟩

/-- A move to the next part gives the part the cursor gives, with the same number. -/
theorem nextPart_mirrors (hZ : Streams Z) {m : Message ρ} {c : Cursor}
    (h : Mirrors Z b msg L m c) :
    m.nextPart.1 = (c.next L).1 ∧ Mirrors Z b msg L m.nextPart.2 (c.next L).2 := by
  obtain ⟨heq, hmir⟩ := advance_mirrors hZ h
  rcases hr : m.advance with ⟨r, m'⟩
  rcases hcr : c.advance L with ⟨r', c'⟩
  rw [hr, hcr] at heq hmir
  simp only at heq
  subst heq
  rcases r with f | _ | hs
  · simp only [nextPart, hr, Cursor.next, hcr]
    exact ⟨trivial, hmir⟩
  · simp only [nextPart, hr, Cursor.next, hcr]
    exact ⟨trivial, hmir⟩
  · -- the part is numbered by the parts taken before it
    obtain ⟨hc', body, hbody⟩ := Cursor.body_of_advance hcr
    have hm' : m'.yielded = c'.yielded := hmir.2.2.1
    -- the cursor is in a body, so the message is in one too
    obtain ⟨b', hb'⟩ : ∃ b', m'.stage = .body b' := by
      have hst := hmir.2.2.2
      cases hs' : m'.stage <;> simp only [hs', hbody] at hst
      exact ⟨_, rfl⟩
    simp only [nextPart, hr, hb', Cursor.next, hcr]
    exact ⟨by rw [hm', hc', Nat.add_sub_cancel], hmir⟩

/-- Every call answers as the cursor answers, and the message stays where the cursor is. -/
theorem call_mirrors (hZ : Streams Z) {m : Message ρ} {c : Cursor}
    (h : Mirrors Z b msg L m c) (k : Call) :
    (m.call k).1 = (c.call L k).1 ∧ Mirrors Z b msg L (m.call k).2 (c.call L k).2 := by
  have hZi : Streams (Inside Z b msg) := Scanner.streams_tracks hZ _
  cases k with
  | next =>
    obtain ⟨heq, hmir⟩ := nextPart_mirrors hZ h
    exact ⟨by simp only [call, Cursor.call, heq], hmir⟩
  | preamble n =>
    obtain ⟨hb, hL, hy, hst⟩ := h
    cases hs : m.stage <;> cases hc : c.stage <;> simp only [hs, hc] at hst
    · obtain ⟨O, hseg, hahead⟩ := hst
      obtain ⟨hbytes, hrest⟩ := (Scanner.streams_tracks hZi O).readSome hseg n
      simp only [call, readPreamble, hs, Cursor.call, hc, hbytes]
      exact ⟨trivial, hb, hL, hy, O, hrest, hahead⟩
    all_goals simp only [call, readPreamble, hs, Cursor.call, hc]
    all_goals exact ⟨trivial, hb, hL, hy, by rw [hs, hc]; exact hst⟩
  | body n =>
    obtain ⟨hb, hL, hy, hst⟩ := h
    cases hs : m.stage <;> cases hc : c.stage <;> simp only [hs, hc] at hst
    · simp only [call, readBody, hs, Cursor.call, hc]
      exact ⟨trivial, hb, hL, hy, by simpa [hs, hc] using hst⟩
    · obtain ⟨O, hbody, hahead⟩ := hst
      obtain ⟨hbytes, hrest⟩ :=
        (Pushback.streams_over (Scanner.streams_tracks hZi O)).readSome hbody n
      simp only [call, readBody, hs, Cursor.call, hc, hbytes]
      exact ⟨trivial, hb, hL, hy, O, hrest, hahead⟩
    all_goals simp only [call, readBody, hs, Cursor.call, hc]
    all_goals exact ⟨trivial, hb, hL, hy, by rw [hs, hc]; exact hst⟩

/-- A run of calls answers as the cursor's run, by induction on the calls. -/
theorem calls_mirrors (hZ : Streams Z) :
    ∀ {m : Message ρ} {c : Cursor} (ks : List Call), Mirrors Z b msg L m c →
      (m.calls ks).1 = (c.calls L ks).1 ∧ Mirrors Z b msg L (m.calls ks).2 (c.calls L ks).2
  | _, _, [], h => ⟨rfl, h⟩
  | _, _, k :: ks, h => by
    obtain ⟨heq, hmir⟩ := call_mirrors hZ h k
    obtain ⟨heqs, hmirs⟩ := calls_mirrors hZ ks hmir
    exact ⟨by simp only [calls, Cursor.calls, heq, heqs], hmirs⟩

/-- What is left inside the closing bound is skipped, and the stream after the closing delimiter
is the epilogue. -/
theorem epilogue_of_inside (hZ : Streams Z) {rest : Pushback (Scanner ρ)} {X : List UInt8}
    (h : Pushback.Over (Inside Z b msg) rest X) :
    ∃ rest' q, ByteReader.readToEnd rest = ⟨X, .ended, rest'⟩ ∧
      rest'.inner.intoRemaining = .ok q ∧ Pushback.Over Z q ((b.closing.after msg).getD []) := by
  obtain ⟨rest', hg, ⟨ys, hys, -⟩, -⟩ :=
    (Pushback.streams_over (Scanner.streams_tracks hZ _)).readToEnd h
  obtain ⟨q, hq, hover⟩ := Scanner.intoRemaining_tracks hZ hys
  exact ⟨rest', q, hg, hq, hover⟩

theorem mapError_ok {ε ε' α : Type} (f : ε → ε') (a : α) :
    (Except.ok a : Except ε α).mapError f = .ok a := rfl

/-- Unless a failure poisoned it, a message hands on the stream after its closing delimiter,
wherever it stands. -/
theorem intoEpilogue_mirrors (hZ : Streams Z) {m : Message ρ} {c : Cursor}
    (h : Mirrors Z b msg L m c) (hc : c.stage ≠ .poisoned) :
    ∃ p, m.intoEpilogue = .ok p ∧ Pushback.Over Z p ((b.closing.after msg).getD []) := by
  obtain ⟨rfl, -, -, hst⟩ := h
  have hZi : Streams (Inside Z m.boundary msg) := Scanner.streams_tracks hZ _
  cases hs : m.stage <;> cases hc' : c.stage <;> simp only [hs, hc'] at hst
  · obtain ⟨O, hseg, -⟩ := hst
    obtain ⟨rest, hrem, hrest⟩ := Scanner.intoRemaining_tracks hZi hseg
    obtain ⟨rest', q, hg, hq, hover⟩ := epilogue_of_inside hZ hrest
    exact ⟨q, by simp [intoEpilogue, hs, hrem, mapError_ok, hg, hq], hover⟩
  · obtain ⟨O, ⟨ys, hys, -⟩, -⟩ := hst
    obtain ⟨rest, hrem, hrest⟩ := Scanner.intoRemaining_tracks hZi hys
    obtain ⟨rest', q, hg, hq, hover⟩ := epilogue_of_inside hZ hrest
    exact ⟨q, by simp [intoEpilogue, hs, hrem, mapError_ok, hg, hq], hover⟩
  · obtain ⟨X, hrest⟩ := hst
    obtain ⟨rest', q, hg, hq, hover⟩ := epilogue_of_inside hZ hrest
    exact ⟨q, by simp [intoEpilogue, hs, hg, hq], hover⟩
  · exact absurd hc' hc


/-- A message read with any chunking and no limits answers every run of calls as the cursor over
its layout does: the preamble reads give the bytes before the opening delimiter, each move gives
the next segment's headers and numbers the part by the parts before it, the body reads give the
bytes after its header block, and once the segments are used up every move gives `none`.
Afterwards the stream after the message is the epilogue. -/
theorem reading_follows_layout {M : List UInt8} {src : ρ}
    (hsrc : Yields src M) (B : List UInt8) (ks : List Call) :
    ((Message.new src B).calls ks).1 =
        ((Cursor.start (Boundary.layout ⟨B⟩ M)).calls Limits.unlimited ks).1 ∧
      ∃ p, ((Message.new src B).calls ks).2.intoEpilogue = .ok p ∧
        Yields p (Boundary.layout ⟨B⟩ M).epilogue := by
  obtain ⟨Z, hZ, h⟩ := hsrc
  obtain ⟨heq, hmir⟩ := calls_mirrors hZ ks (mirrors_start h ⟨B⟩ Limits.unlimited)
  obtain ⟨p, hp, hover⟩ := intoEpilogue_mirrors hZ hmir
    (Cursor.calls_unpoisoned ks (by simp [Cursor.start]))
  refine ⟨heq, p, hp, ?_⟩
  rw [Boundary.layout_eq]
  exact ⟨_, Pushback.streams_over hZ, hover⟩

/-- A message with the empty token and one part `x` without headers, read one byte at a time:
move to the part and read its body. -/
theorem reading_follows_layout_single_part :
    let msg : List UInt8 := [45, 45, 13, 10, 13, 10, 120, 13, 10, 45, 45, 45, 45]
    let src : Source := { data := msg, chunk := some 1 }
    let ks : List Call := [.next, .body none]
    ((Message.new src []).calls ks).1 =
        ((Cursor.start (Boundary.layout ⟨[]⟩ msg)).calls Limits.unlimited ks).1 ∧
      ∃ p, ((Message.new src []).calls ks).2.intoEpilogue = .ok p ∧
        Yields p (Boundary.layout ⟨[]⟩ msg).epilogue := by
  intro msg src ks
  exact reading_follows_layout (Source.yields src rfl) [] ks

end Message

end MimeMultipart
