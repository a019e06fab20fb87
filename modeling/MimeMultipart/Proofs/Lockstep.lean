import MimeMultipart.Segments
import MimeMultipart.Script.Stream
import MimeMultipart.Stream.Source
/-!
# Streams that answer alike

How a source cuts its data into pieces is invisible to every reader built on it, because each
reader asks for bytes in loops that run until they have what they want or the data ends. This
module states that as relations between two states of one stream type, kept by every operation.

`Lockstep R` says that `R` relates streams that give the same answer to every single request
and stay related. `LoopsAlike R` asks less: every loop of requests (`ByteReader.gatherFrom`)
gathers the same bytes, stops the same way and leaves related streams. Two sources with the
same bytes and the same end (`Source.SameBytes`) loop alike whatever their piece sizes, though
their single requests differ. A pushback keeps each of the two relations, and a scanner turns
streams that loop alike into scanners in lockstep (`Scanner.lockstep`), as it reads its source
only in loops. So every stack of scanners and pushbacks over such sources loops alike, and what
is read from it agrees: the pieces between delimiters and the answers of scanner scripts.
-/

namespace MimeMultipart

/-! ## Agreeing answers -/

section Agreement

variable {α σ : Type}

/-- Two answers agree: the same value, with states that `R` relates. -/
structure Agree (R : σ → σ → Prop) (r r' : α × σ) : Prop where
  answer : r.1 = r'.1
  state : R r.2 r'.2

theorem Agree.elim {R : σ → σ → Prop} {r r' : α × σ} (h : Agree R r r') :
    ∃ a x x', r = (a, x) ∧ r' = (a, x') ∧ R x x' :=
  ⟨r.1, r.2, r'.2, rfl, by rw [h.answer], h.state⟩

/-- Two loops of requests agree: they gathered the same bytes, stopped the same way, and left
streams that `R` relates. -/
structure Gathered.Agree (R : σ → σ → Prop) (g g' : Gathered σ) : Prop where
  data : g.data = g'.data
  ending : g.ending = g'.ending
  rest : R g.rest g'.rest

theorem Gathered.Agree.elim {R : σ → σ → Prop} {g g' : Gathered σ}
    (h : Gathered.Agree R g g') : ∃ d e x x', g = ⟨d, e, x⟩ ∧ g' = ⟨d, e, x'⟩ ∧ R x x' :=
  ⟨g.data, g.ending, g.rest, g'.rest, rfl, by rw [h.data, h.ending], h.rest⟩

theorem Gathered.Agree.bytes?_eq {R : σ → σ → Prop} {g g' : Gathered σ}
    (h : Gathered.Agree R g g') : g.bytes? = g'.bytes? := by
  unfold Gathered.bytes?
  rw [h.data, h.ending]

/-- Two outcomes agree: both failed, with failures that `E` relates, or both succeeded, with
values that `A` relates. -/
inductive Except.Agree {ε : Type} (E : ε → ε → Prop) (A : α → α → Prop) :
    Except ε α → Except ε α → Prop
  | error {e e' : ε} : E e e' → Except.Agree E A (.error e) (.error e')
  | ok {a a' : α} : A a a' → Except.Agree E A (.ok a) (.ok a')

/-- Runs of one step function from related states give the same answers. -/
theorem runEach_congr {Q : σ → σ → Prop} {step : α → σ → Answer × σ}
    (hstep : ∀ op {s s'}, Q s s' → Agree Q (step op s) (step op s')) :
    ∀ (ops : List α) {s s' : σ}, Q s s' → runEach step ops s = runEach step ops s'
  | [], _, _, _ => rfl
  | op :: ops, _, _, h => by
    obtain ⟨a, x, x', hx, hx', hxx⟩ := (hstep op h).elim
    simp only [runEach, hx, hx', runEach_congr hstep ops hxx]

end Agreement

/-! ## Lockstep and loops -/

section Lockstep

variable {σ : Type} [ByteReader σ] {R : σ → σ → Prop}

/-- `R` relates streams in lockstep: they have the same bound, answer each request alike and
stay related. -/
structure Lockstep (R : σ → σ → Prop) : Prop where
  bound : ∀ {s t}, R s t → ByteReader.bound s = ByteReader.bound t
  read : ∀ {s t}, R s t → ∀ n, Agree R (ByteReader.read s n) (ByteReader.read t n)

/-- `R` relates streams whose loops of requests agree and whose bounds are equal; their single
requests may differ. -/
structure LoopsAlike (R : σ → σ → Prop) : Prop where
  bound : ∀ {s t}, R s t → ByteReader.bound s = ByteReader.bound t
  gather : ∀ {s t}, R s t → ∀ want acc,
    Gathered.Agree R (ByteReader.gatherFrom s want acc) (ByteReader.gatherFrom t want acc)

/-- Streams in lockstep loop alike: each loop makes the same requests of both. -/
theorem Lockstep.loopsAlike (hR : Lockstep R) : LoopsAlike R where
  bound := hR.bound
  gather := by
    intro s t h want
    induction want using Nat.strongRecOn generalizing s t with
    | ind want ih =>
      intro acc
      rw [ByteReader.gatherFrom.eq_def, ByteReader.gatherFrom.eq_def t]
      split
      · exact ⟨rfl, rfl, h⟩
      · obtain ⟨d, s', t', hs, ht, hr⟩ := (hR.read h want).elim
        rw [hs, ht]
        rcases d with ⟨_ | ⟨b, bs⟩⟩ | _
        · exact ⟨rfl, rfl, hr⟩
        · exact ih _ (by omega) hr _
        · exact ⟨rfl, rfl, hr⟩

variable {s t : σ}

theorem LoopsAlike.readUpTo (hR : LoopsAlike R) (h : R s t) (n : Nat) :
    Gathered.Agree R (ByteReader.readUpTo s n) (ByteReader.readUpTo t n) :=
  hR.gather h n []

theorem LoopsAlike.readToEnd (hR : LoopsAlike R) (h : R s t) :
    Gathered.Agree R (ByteReader.readToEnd s) (ByteReader.readToEnd t) := by
  unfold ByteReader.readToEnd
  rw [hR.bound h]
  exact hR.readUpTo h _

theorem LoopsAlike.readSome (hR : LoopsAlike R) (h : R s t) (n : Option Nat) :
    Gathered.Agree R (ByteReader.readSome s n) (ByteReader.readSome t n) := by
  cases n with
  | some n => exact hR.readUpTo h n
  | none => exact hR.readToEnd h

end Lockstep

/-! ## Sources -/

/-- Two sources with the same bytes that end alike; the sizes of their pieces may differ. -/
structure Source.SameBytes (s t : Source) : Prop where
  data : s.data = t.data
  fails : s.fails = t.fails

namespace Source

/-- A first read of `k` bytes and a second of `want` less what the first brought read the first
`want` bytes, as the first brings fewer only at the end. -/
theorem take_append_take_drop (D : List UInt8) {k want : Nat} (hk : k ≤ want) :
    D.take k ++ (D.drop k).take (want - min k D.length) = D.take want ∧
      (D.drop k).drop (want - min k D.length) = D.drop want := by
  by_cases hkD : k ≤ D.length
  · have hsplit : want = k + (want - k) := by omega
    rw [Nat.min_eq_left hkD, List.drop_drop, ← hsplit]
    exact ⟨by rw [← List.take_add, ← hsplit], rfl⟩
  · have hdrop : D.drop k = [] := List.drop_eq_nil_of_le (by omega)
    have htake : D.take k = D := List.take_of_length_le (by omega)
    have htake' : D.take want = D := List.take_of_length_le (by omega)
    have hdrop' : D.drop want = [] := List.drop_eq_nil_of_le (by omega)
    simp [hdrop, htake, htake', hdrop']

/-- A loop of requests to a source gathers its first `want` bytes, whatever the size of its
pieces; it fails or ends only when fewer were left. -/
theorem gatherFrom_agree (s : Source) (want : Nat) (acc : List UInt8) :
    Gathered.Agree SameBytes (ByteReader.gatherFrom s want acc)
      ⟨acc.reverse ++ s.data.take want,
        if want ≤ s.data.length then .filled else if s.fails then .failed else .ended,
        { data := s.data.drop want, fails := s.fails }⟩ := by
  induction want using Nat.strongRecOn generalizing s acc with
  | ind want ih =>
    rw [ByteReader.gatherFrom.eq_def]
    by_cases hw : want = 0
    · subst hw
      exact ⟨by simp, by simp, by simp, rfl⟩
    · rw [if_neg hw]
      cases hdata : s.data with
      | nil =>
        have hread : ByteReader.read s want = (if s.fails then .failed else .bytes [], s) := by
          simp [ByteReader.read, read, hw, hdata]
        rw [hread]
        cases hf : s.fails
        · exact ⟨by simp, by simp [hw], by simp [hdata], hf⟩
        · exact ⟨by simp, by simp [hw], by simp [hdata], hf⟩
      | cons x xs =>
        -- the first piece is `x` and the `k` bytes after it; the loop goes on after them
        have hpiece : 0 < s.piece want ∧ s.piece want ≤ want := by
          unfold piece
          split <;> omega
        obtain ⟨k, hk⟩ : ∃ k, s.piece want = k + 1 := ⟨s.piece want - 1, by omega⟩
        have hkw : k + 1 ≤ want := by omega
        have hread : ByteReader.read s want =
            (.bytes (x :: xs.take k), (s.read want).2) := by
          simp [ByteReader.read, read, hw, hdata, hk]
        have hrest : (s.read want).2.data = (x :: xs).drop (k + 1) ∧
            (s.read want).2.fails = s.fails := by
          simp [read, hw, hdata, hk]
        rw [hread]
        show Gathered.Agree SameBytes (ByteReader.gatherFrom (s.read want).2
          (want - ((xs.take k).length + 1)) (List.reverseAux (x :: xs.take k) acc)) _
        have hlen : (xs.take k).length + 1 = min (k + 1) (x :: xs).length := by
          simp [Nat.min_def]
          split <;> omega
        have h' := ih (want - ((xs.take k).length + 1)) (by simp only [List.length_take]; omega)
          (s.read want).2 (List.reverseAux (x :: xs.take k) acc)
        obtain ⟨htake, hdrop⟩ := take_append_take_drop (x :: xs) hkw
        rw [hlen] at h' ⊢
        rw [hrest.1, hrest.2, hdrop] at h'
        refine ⟨h'.data.trans ?_, h'.ending.trans ?_, h'.rest⟩
        · rw [List.reverseAux_eq, List.reverse_append, List.reverse_reverse, List.append_assoc,
            ← htake, List.take_succ_cons]
        · simp only [List.length_drop]
          by_cases hle : want ≤ (x :: xs).length
          · rw [if_pos (by omega), if_pos hle]
          · rw [if_neg (by omega), if_neg hle]

/-- Sources with the same bytes loop alike. -/
theorem loopsAlike : LoopsAlike SameBytes where
  bound h := by rw [bound_eq, bound_eq, h.data]
  gather := by
    intro s t h want acc
    have hs := gatherFrom_agree s want acc
    have ht := gatherFrom_agree t want acc
    rw [h.data, h.fails] at hs
    exact ⟨hs.data.trans ht.data.symm, hs.ending.trans ht.ending.symm,
      ⟨hs.rest.data.trans ht.rest.data.symm, hs.rest.fails.trans ht.rest.fails.symm⟩⟩

end Source

/-! ## Pushback -/

/-- Two pushbacks with the same pending bytes over inner streams that `R` relates. -/
structure Pushback.Alike {σ : Type} (R : σ → σ → Prop) (p q : Pushback σ) : Prop where
  pending : p.pending = q.pending
  inner : R p.inner q.inner

namespace Pushback

variable {σ : Type} {R : σ → σ → Prop} {p q : Pushback σ}

theorem Alike.unread (h : Alike R p q) (bs : List UInt8) : Alike R (p.unread bs) (q.unread bs) :=
  ⟨by rw [Pushback.unread, Pushback.unread, h.pending], h.inner⟩

variable [ByteReader σ]

theorem bound_eq (p : Pushback σ) :
    ByteReader.bound p = p.pending.items.length + ByteReader.bound p.inner := rfl

/-- With nothing pending, a loop of requests to a pushback is a loop on its inner stream. -/
theorem gatherFrom_of_nil {p : Pushback σ} (hp : p.pending.items = []) (want : Nat)
    (acc : List UInt8) :
    ByteReader.gatherFrom p want acc =
      ⟨(ByteReader.gatherFrom p.inner want acc).data, (ByteReader.gatherFrom p.inner want acc).ending,
        { p with inner := (ByteReader.gatherFrom p.inner want acc).rest }⟩ := by
  induction want using Nat.strongRecOn generalizing p acc with
  | ind want ih =>
    rw [ByteReader.gatherFrom.eq_def, ByteReader.gatherFrom.eq_def p.inner]
    by_cases hw : want = 0
    · simp [hw]
    · rw [if_neg hw, if_neg hw, read_of_nil hw hp]
      generalize ByteReader.read p.inner want = r
      rcases r with ⟨⟨_ | ⟨b, bs⟩⟩ | _, s'⟩
      · rfl
      · exact ih _ (by omega) (p := { p with inner := s' }) hp _
      · rfl

theorem lockstep (hR : Lockstep R) : Lockstep (Alike R) where
  bound h := by rw [bound_eq, bound_eq, h.pending, hR.bound h.inner]
  read := by
    rintro ⟨P, s⟩ ⟨P', t⟩ ⟨hP, h⟩ n
    obtain rfl : P = P' := hP
    by_cases hn : n = 0
    · subst hn
      exact ⟨rfl, rfl, h⟩
    · by_cases hnil : P.items = []
      · rw [read_of_nil hn hnil, read_of_nil hn hnil]
        exact ⟨(hR.read h n).answer, rfl, (hR.read h n).state⟩
      · rw [read_of_ne_nil hn hnil, read_of_ne_nil hn hnil]
        exact ⟨rfl, rfl, h⟩

/-- A pushback answers from its pending bytes first, then loops on its inner stream; so over
streams that loop alike it loops alike. -/
theorem loopsAlike (hR : LoopsAlike R) : LoopsAlike (Alike R) where
  bound h := by rw [bound_eq, bound_eq, h.pending, hR.bound h.inner]
  gather := by
    rintro ⟨P, s⟩ ⟨P', t⟩ ⟨hP, h⟩ want
    obtain rfl : P = P' := hP
    induction want using Nat.strongRecOn generalizing P with
    | ind want ih =>
      intro acc
      by_cases hnil : P.items = []
      · rw [gatherFrom_of_nil hnil, gatherFrom_of_nil hnil]
        have hg := hR.gather h want acc
        exact ⟨hg.data, hg.ending, rfl, hg.rest⟩
      · rw [ByteReader.gatherFrom.eq_def, ByteReader.gatherFrom.eq_def (⟨P, t⟩ : Pushback σ)]
        split
        · exact ⟨rfl, rfl, rfl, h⟩
        · -- both take the same first piece of the front slice, and go on from the same bytes
          rename_i hw
          rw [read_of_ne_nil hw hnil, read_of_ne_nil hw hnil]
          obtain ⟨b, bs, hbs, -⟩ := ByteDeque.take_front_eq_cons hnil hw
          simp only [hbs]
          exact ih (want - (bs.length + 1)) (by omega) (P.drainFront (min P.frontSlice.length want)) h _

/-- Looking ahead answers alike on pushbacks over streams in lockstep. -/
theorem atEnd_agree (hR : Lockstep R) (h : Alike R p q) : Agree (Alike R) p.atEnd q.atEnd := by
  obtain ⟨P, s⟩ := p
  obtain ⟨P', t⟩ := q
  obtain ⟨hP, h⟩ := h
  obtain rfl : P = P' := hP
  cases hnil : P.items with
  | cons x xs => simp only [atEnd, hnil]; exact ⟨rfl, rfl, h⟩
  | nil =>
    obtain ⟨d, s', t', hs, ht, hr⟩ := (hR.read h 1).elim
    simp only [atEnd, hnil, hs, ht]
    rcases d with ⟨_ | ⟨b, bs⟩⟩ | _ <;> exact ⟨rfl, rfl, hr⟩

end Pushback

/-! ## Scanners -/

/-- Two scanners in the same state over sources that `Pushback.Alike R` relates. -/
structure Scanner.Alike {σ : Type} (R : σ → σ → Prop) (sc sc' : Scanner σ) : Prop where
  delimiter : sc.delimiter = sc'.delimiter
  window : sc.window = sc'.window
  phase : sc.phase = sc'.phase
  source : Pushback.Alike R sc.source sc'.source

namespace Scanner

variable {σ : Type} {R : σ → σ → Prop} {sc sc' : Scanner σ}

theorem Alike.found (h : Alike R sc sc') : sc.found = sc'.found := by
  unfold Scanner.found
  rw [h.phase]

theorem Alike.finished (h : Alike R sc sc') : sc.finished = sc'.finished := by
  unfold Scanner.finished
  rw [h.phase]

theorem Alike.base (h : Alike R sc sc') : R sc.base sc'.base := h.source.inner

theorem alike_withSource {p q : Pushback σ} (h : Pushback.Alike R p q) (d : Delimiter) :
    Alike R (withSource p d) (withSource q d) := ⟨rfl, rfl, rfl, h⟩

theorem alike_new {s t : σ} (h : R s t) (d : Delimiter) : Alike R (new s d) (new t d) :=
  ⟨rfl, rfl, rfl, rfl, h⟩

theorem Alike.eq_mk (h : Alike R sc sc') :
    sc = ⟨sc.delimiter, sc.source, sc.window, sc.phase⟩ ∧
      sc' = ⟨sc.delimiter, sc'.source, sc.window, sc.phase⟩ := by
  obtain ⟨d, p, w, ph⟩ := sc
  obtain ⟨d', p', w', ph'⟩ := sc'
  obtain ⟨hd, hw, hph, -⟩ := h
  simp_all

theorem deliver_agree (h : Alike R sc sc') (n : Nat) :
    Agree (Alike R) (sc.deliver n) (sc'.deliver n) := by
  obtain ⟨hsc, hsc'⟩ := h.eq_mk
  rw [hsc, hsc']
  have hp := h.source
  generalize sc.delimiter = d, sc.window = w, sc.phase = ph
  cases ph <;> simp only [deliver, serve, close, found] <;> (repeat' split) <;>
    exact ⟨rfl, rfl, rfl, rfl, hp⟩

variable [ByteReader σ]

theorem bound_eq (sc : Scanner σ) : ByteReader.bound sc =
    if sc.finished then 0 else sc.window.length + ByteReader.bound sc.source := rfl

/-- A top-up over sources that loop alike reads the same bytes and searches the same window. -/
theorem refill_agree (hR : LoopsAlike R) (h : Alike R sc sc') :
    Agree (Alike R) sc.refill sc'.refill := by
  obtain ⟨hsc, hsc'⟩ := h.eq_mk
  have hp := h.source
  rw [hsc, hsc']
  generalize sc.delimiter = d, sc.window = w, sc.phase = ph at *
  obtain ⟨data, e, g, g', hg, hg', hgg⟩ :=
    ((Pushback.loopsAlike hR).readUpTo hp (2 * d.length - w.length)).elim
  simp only [refill, hg, hg']
  cases e with
  | failed => exact ⟨rfl, rfl, rfl, rfl, hgg⟩
  | filled | ended =>
    cases d.find (w ++ data) with
    | some pos => exact ⟨rfl, rfl, rfl, rfl, hgg.unread _⟩
    | none => exact ⟨rfl, rfl, rfl, rfl, hgg⟩

/-- A scanner reads its source only in loops, so over sources that loop alike it answers each
request alike. -/
theorem read_agree (hR : LoopsAlike R) (h : Alike R sc sc') (n : Nat) :
    Agree (Alike R) (sc.read n) (sc'.read n) := by
  have hrefill : ∀ {sc sc' : Scanner σ}, Alike R sc sc' →
      Agree (Alike R) (sc.refillThenDeliver n) (sc'.refillThenDeliver n) := by
    intro sc sc' h
    obtain ⟨ok, x, x', hx, hx', hxx⟩ := (refill_agree hR h).elim
    unfold refillThenDeliver
    rw [hx, hx']
    cases ok
    · exact ⟨rfl, hxx⟩
    · exact deliver_agree hxx n
  unfold Scanner.read
  rw [← h.phase, ← h.window, ← h.delimiter]
  split
  · exact ⟨rfl, h⟩
  · split
    · exact ⟨rfl, h⟩
    · exact deliver_agree h n
    · exact deliver_agree h n
    · split
      · exact deliver_agree h n
      · exact hrefill h
    · exact hrefill h

theorem lockstep (hR : LoopsAlike R) : Lockstep (Alike R) where
  bound h := by
    rw [bound_eq, bound_eq, h.finished, h.window, (Pushback.loopsAlike hR).bound h.source]
  read h n := read_agree hR h n

theorem loopsAlike (hR : LoopsAlike R) : LoopsAlike (Alike R) := (lockstep hR).loopsAlike

theorem readByte_agree (hR : LoopsAlike R) (h : Alike R sc sc') :
    Agree (Alike R) sc.readByte sc'.readByte := by
  obtain ⟨d, x, x', hx, hx', hxx⟩ := (read_agree hR h 1).elim
  unfold readByte
  rw [hx, hx']
  rcases d with ⟨_ | ⟨b, bs⟩⟩ | _ <;> exact ⟨rfl, hxx⟩

theorem drain_agree (hR : LoopsAlike R) (h : Alike R sc sc') :
    Agree (Alike R) sc.drain sc'.drain := by
  have hg := (loopsAlike hR).readToEnd h
  exact ⟨by simp only [drain, hg.bytes?_eq], hg.rest⟩

/-- Taking the stream after alike scanners gives alike pushbacks, or the same failure. -/
theorem intoRemaining_agree (hR : LoopsAlike R) (h : Alike R sc sc') :
    Except.Agree (Agree R) (Pushback.Alike R) sc.intoRemaining sc'.intoRemaining := by
  obtain ⟨r, x, x', hx, hx', hxx⟩ := (drain_agree hR h).elim
  unfold intoRemaining
  rw [hx, hx']
  cases r with
  | error f => exact .error ⟨rfl, hxx.base⟩
  | ok _ => exact .ok hxx.source

/-! ## Pieces between delimiters -/

theorem segmentsFrom_congr (hR : LoopsAlike R) (d : Delimiter) :
    ∀ (fuel : Nat) {sc sc' : Scanner σ} (acc : List (List UInt8)), Alike R sc sc' →
      segmentsFrom d fuel sc acc = segmentsFrom d fuel sc' acc
  | 0, _, _, _, _ => rfl
  | fuel + 1, sc, sc', acc, h => by
    obtain ⟨data, e, x, x', hg, hg', hx⟩ := ((loopsAlike hR).readToEnd h).elim
    simp only [segmentsFrom, hg, hg', Gathered.bytes?]
    cases e with
    | failed => rfl
    | filled | ended =>
      simp only [hx.found]
      split
      · have hi := intoRemaining_agree hR hx
        generalize x.intoRemaining = r at hi ⊢
        generalize x'.intoRemaining = r' at hi ⊢
        cases hi with
        | error he =>
          obtain ⟨f, y, y', rfl, rfl, -⟩ := he.elim
          rfl
        | ok hp => exact segmentsFrom_congr hR d fuel _ (alike_withSource hp d)
      · rfl

/-- Streams that loop alike are cut into the same pieces. -/
theorem segments_congr (hR : LoopsAlike R) {s t : σ} (h : R s t) (d : Delimiter) :
    segments s d = segments t d := by
  simp only [segments]
  rw [(lockstep hR).bound (alike_new h d)]
  exact segmentsFrom_congr hR d _ _ (alike_new h d)

end Scanner

/-! ## Scanner scripts -/

section Scripts

variable {σ : Type} [ByteReader σ] {R : σ → σ → Prop}

/-- One scanner operation answers alike on alike scanners, when what the script sees under the
scanner answers alike on alike streams. -/
theorem ScanOp.run_agree (hR : LoopsAlike R) {floor : ScanFloor σ}
    (hout : ∀ {s t}, R s t → floor.outerState s = floor.outerState t)
    (hrem : ∀ {p q}, Pushback.Alike R p q → floor.remaining p = floor.remaining q)
    (op : ScanOp) {o o' : Option (Scanner σ)} (h : Option.Rel (Scanner.Alike R) o o') :
    Agree (Option.Rel (Scanner.Alike R)) (op.run floor o) (op.run floor o') := by
  cases h with
  | none => exact ⟨rfl, .none⟩
  | @some sc sc' h =>
    cases op with
    | read n =>
      have hg := (Scanner.loopsAlike hR).readUpTo h n
      exact ⟨by simp only [ScanOp.run, hg.bytes?_eq], .some hg.rest⟩
    | readAll =>
      have hg := (Scanner.loopsAlike hR).readToEnd h
      exact ⟨by simp only [ScanOp.run, hg.bytes?_eq], .some hg.rest⟩
    | readByte =>
      obtain ⟨r, x, x', hx, hx', hxx⟩ := (Scanner.readByte_agree hR h).elim
      simp only [ScanOp.run, hx, hx']
      cases r <;> exact ⟨rfl, .some hxx⟩
    | drain =>
      obtain ⟨r, x, x', hx, hx', hxx⟩ := (Scanner.drain_agree hR h).elim
      simp only [ScanOp.run, hx, hx']
      cases r <;> exact ⟨rfl, .some hxx⟩
    | state => exact ⟨by simp only [ScanOp.run, h.found, h.finished], .some h⟩
    | outerState => exact ⟨by simp only [ScanOp.run, hout h.base], .some h⟩
    | remaining =>
      have hi := Scanner.intoRemaining_agree hR h
      simp only [ScanOp.run]
      generalize sc.intoRemaining = r at hi ⊢
      generalize sc'.intoRemaining = r' at hi ⊢
      cases hi with
      | error he =>
        obtain ⟨f, y, y', rfl, rfl, -⟩ := he.elim
        exact ⟨rfl, .none⟩
      | ok hp => exact ⟨hrem hp, .none⟩
    | invalid reason => exact ⟨rfl, .some h⟩

theorem ScanFloor.plain_remaining (hR : LoopsAlike R) {p q : Pushback σ}
    (h : Pushback.Alike R p q) : ScanFloor.plain.remaining p = ScanFloor.plain.remaining q := by
  have hg := (Pushback.loopsAlike hR).readToEnd h
  simp only [ScanFloor.plain, hg.bytes?_eq, hg.rest.pending]

/-- Inside an outer scanner, the stream after a scanner and the stream after the outer one are
read alike. -/
theorem ScanFloor.within_remaining (hR : LoopsAlike R) {p q : Pushback (Scanner σ)}
    (h : Pushback.Alike (Scanner.Alike R) p q) :
    ScanFloor.within.remaining p = ScanFloor.within.remaining q := by
  obtain ⟨data, e, x, x', hg, hg', hx⟩ :=
    ((Pushback.loopsAlike (Scanner.loopsAlike hR)).readToEnd h).elim
  simp only [ScanFloor.within, hg, hg', Gathered.bytes?]
  cases e with
  | failed => rfl
  | filled | ended =>
    have hi := Scanner.intoRemaining_agree hR hx.inner
    rw [hx.inner.found]
    generalize x.inner.intoRemaining = r at hi ⊢
    generalize x'.inner.intoRemaining = r' at hi ⊢
    cases hi with
    | error he =>
      obtain ⟨f, y, y', rfl, rfl, -⟩ := he.elim
      rfl
    | ok hq =>
      have hg2 := (Pushback.loopsAlike hR).readToEnd hq
      simp only [hg2.data, hg2.ending]

theorem runEach_plain_congr (hR : LoopsAlike R) {s t : σ} (h : R s t) (d : Delimiter)
    (ops : List ScanOp) :
    runEach (ScanOp.run ScanFloor.plain) ops (some (Scanner.new s d)) =
      runEach (ScanOp.run ScanFloor.plain) ops (some (Scanner.new t d)) :=
  runEach_congr (fun op _ _ ho => ScanOp.run_agree hR (fun _ => rfl)
    (ScanFloor.plain_remaining hR) op ho) ops (.some (Scanner.alike_new h d))

theorem runEach_within_congr (hR : LoopsAlike R) {s t : σ} (h : R s t) (o d : Delimiter)
    (ops : List ScanOp) :
    runEach (ScanOp.run ScanFloor.within) ops (some (Scanner.new (Scanner.new s o) d)) =
      runEach (ScanOp.run ScanFloor.within) ops (some (Scanner.new (Scanner.new t o) d)) :=
  runEach_congr (fun op _ _ ho => ScanOp.run_agree (Scanner.loopsAlike hR)
    (fun hst => by simp only [ScanFloor.within, hst.found, hst.finished])
    (ScanFloor.within_remaining hR) op ho) ops
    (.some (Scanner.alike_new (Scanner.alike_new h o) d))

end Scripts

end MimeMultipart
