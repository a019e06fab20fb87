import MimeMultipart.Proofs.Lockstep
import MimeMultipart.Script.Message
/-!
# Chunking is invisible

A source hands out its bytes in pieces of at most `chunk` bytes. Nothing read from it shows the
size of its pieces: every loop in the library keeps asking until it has the bytes it wants or
the data ends, so two sources with the same bytes and the same end answer every reader alike.

The relations of `Proofs.Lockstep` carry this up through header blocks (`readBlock_agree`) and
messages (`Message.Alike`, kept by every move of a message) to message scripts, whose nested
messages read the body of a part (`Script.run_agree`, by recursion on the script). The main
statement, `answers_ignore_chunking`, collects what a reader sees: scanner scripts straight over
a source or inside an outer scanner, the pieces between delimiters, a header block with the body
after it, and message scripts.
-/

namespace MimeMultipart

/-! ## Header blocks -/

namespace HeaderBlock

section Fields

variable {τ : Type} [ByteReader τ] {R : τ → τ → Prop}

theorem readField_agree (hR : LoopsAlike R) {s t : τ} (h : R s t) (max : Option Nat)
    (used : Nat) : Agree R (readField s max used) (readField t max used) := by
  cases max with
  | none =>
    have hg := hR.readToEnd h
    exact ⟨by simp only [readField, hg.bytes?_eq], hg.rest⟩
  | some n =>
    obtain ⟨data, e, x, x', hg, hg', hx⟩ := (hR.readUpTo h (n - used + 1)).elim
    simp only [readField, hg, hg']
    cases e <;> exact ⟨rfl, hx⟩

/-- A header line read from streams that loop alike gives the same header, or the same
failure, and leaves streams related again. -/
theorem readLine_agree (hR : LoopsAlike R) {line line' : τ} (h : R line line')
    (max : Option Nat) :
    Except.Agree (Agree R) (Agree R) (readLine line max) (readLine line' max) := by
  obtain ⟨r, names, names', hn, hn', hnames⟩ :=
    (readField_agree (Scanner.loopsAlike hR) (Scanner.alike_new h colon) max 0).elim
  unfold readLine
  rw [hn, hn']
  cases r with
  | error f => exact .error ⟨rfl, hnames.base⟩
  | ok name =>
    simp only [hnames.found]
    split
    · exact .ok ⟨rfl, hnames.base⟩
    · have hi := Scanner.intoRemaining_agree hR hnames
      generalize names.intoRemaining = o at hi ⊢
      generalize names'.intoRemaining = o' at hi ⊢
      cases hi with
      | error he => exact .error he
      | ok hp =>
        obtain ⟨r, x, x', hx, hx', hxx⟩ :=
          (readField_agree (Pushback.loopsAlike hR) hp max name.length).elim
        simp only [hx, hx']
        cases r with
        | error f => exact .error ⟨rfl, hxx.inner⟩
        | ok value => exact .ok ⟨rfl, hxx.inner⟩

end Fields

variable {σ : Type} [ByteReader σ] {R : σ → σ → Prop}

theorem finish_agree (hR : LoopsAlike R) {rest rest' : Pushback (Scanner σ)}
    (h : Pushback.Alike (Scanner.Alike R) rest rest') (hs : Headers) :
    Except.Agree (Agree R) (Agree (Pushback.Alike R)) (finish rest hs) (finish rest' hs) := by
  have hi := Scanner.intoRemaining_agree hR h.inner
  unfold finish
  generalize rest.inner.intoRemaining = o at hi ⊢
  generalize rest'.inner.intoRemaining = o' at hi ⊢
  cases hi with
  | error he => exact .error he
  | ok hp => exact .ok ⟨rfl, hp⟩

/-- The loop over the lines of a block, by induction on its fuel: each line is read alike and
leaves alike streams. -/
theorem lines_agree (hR : LoopsAlike R) (limits : Limits) :
    ∀ (fuel : Nat) {rest rest' : Pushback (Scanner σ)} (held : List Header) (count : Nat),
      Pushback.Alike (Scanner.Alike R) rest rest' →
      Except.Agree (Agree R) (Agree (Pushback.Alike R))
        (lines limits fuel rest held count) (lines limits fuel rest' held count)
  | 0, _, _, _, _, h => finish_agree hR h _
  | fuel + 1, rest, rest', held, count, h => by
    obtain ⟨r, p, p', hp, hp', hpp⟩ := (Pushback.atEnd_agree (Scanner.lockstep hR) h).elim
    unfold lines
    rw [hp, hp']
    cases r with
    | error f => exact .error ⟨rfl, hpp.inner.base⟩
    | ok atEnd =>
      cases atEnd with
      | true => exact finish_agree hR hpp _
      | false =>
        -- the line is read by a scanner up to CRLF over the block's scanner
        have hline := readLine_agree (Scanner.loopsAlike (Scanner.loopsAlike hR))
          (Scanner.alike_withSource hpp lineEnd) limits.maxHeaderSize
        simp only
        generalize readLine (Scanner.withSource p lineEnd) limits.maxHeaderSize = o at hline ⊢
        generalize readLine (Scanner.withSource p' lineEnd) limits.maxHeaderSize = o' at hline ⊢
        cases hline with
        | error he =>
          obtain ⟨f, y, y', rfl, rfl, hy⟩ := he.elim
          exact .error ⟨rfl, hy.base.base⟩
        | ok ha =>
          obtain ⟨header, y, y', rfl, rfl, hy⟩ := ha.elim
          have hi := Scanner.intoRemaining_agree (Scanner.loopsAlike hR) hy
          simp only
          generalize y.intoRemaining = o at hi ⊢
          generalize y'.intoRemaining = o' at hi ⊢
          cases hi with
          | error he =>
            obtain ⟨f, z, z', rfl, rfl, hz⟩ := he.elim
            exact .error ⟨rfl, hz.base⟩
          | ok hq =>
            cases header with
            | none => exact finish_agree hR hq _
            | some hd =>
              simp only
              split
              · split
                · exact .error ⟨rfl, hq.inner.base⟩
                · exact lines_agree hR limits fuel _ _ hq
              · exact lines_agree hR limits fuel _ _ hq

end HeaderBlock

/-- A header block read from streams that loop alike gives the same headers and alike bodies,
or the same failure. -/
theorem Headers.readBlock_agree {σ : Type} [ByteReader σ] {R : σ → σ → Prop}
    (hR : LoopsAlike R) {src src' : σ} (h : R src src') (limits : Limits) :
    Except.Agree (Agree R) (Agree (Pushback.Alike R))
      (Headers.readBlock src limits) (Headers.readBlock src' limits) := by
  have hsrc : Pushback.Alike R { inner := src } { inner := src' } := ⟨rfl, h⟩
  obtain ⟨data, e, p, p', hg, hg', hp⟩ := ((Pushback.loopsAlike hR).readUpTo hsrc 2).elim
  unfold Headers.readBlock
  rw [hg, hg']
  cases e with
  | failed => exact .error ⟨rfl, hp.inner⟩
  | filled | ended =>
    simp only
    split
    · exact .ok ⟨rfl, hp⟩
    · have hrest : Pushback.Alike (Scanner.Alike R)
          { inner := Scanner.withSource (p.unread data) HeaderBlock.terminator }
          { inner := Scanner.withSource (p'.unread data) HeaderBlock.terminator } :=
        ⟨rfl, Scanner.alike_withSource (hp.unread data) _⟩
      rw [(Pushback.lockstep (Scanner.lockstep hR)).bound hrest]
      exact HeaderBlock.lines_agree hR limits _ _ _ hrest

/-! ## Messages -/

namespace Message

variable {ρ : Type} {R : ρ → ρ → Prop}

/-- Two stages of the same kind whose readers are alike over streams that `R` relates. -/
inductive Stage.Alike (R : ρ → ρ → Prop) : Stage ρ → Stage ρ → Prop
  | preamble {seg seg' : Segment ρ} : Scanner.Alike (Scanner.Alike R) seg seg' →
      Stage.Alike R (.preamble seg) (.preamble seg')
  | body {b b' : Body ρ} : Pushback.Alike (Scanner.Alike (Scanner.Alike R)) b b' →
      Stage.Alike R (.body b) (.body b')
  | exhausted {rest rest' : Pushback (Scanner ρ)} : Pushback.Alike (Scanner.Alike R) rest rest' →
      Stage.Alike R (.exhausted rest) (.exhausted rest')
  | poisoned {s s' : ρ} : R s s' → Stage.Alike R (.poisoned s) (.poisoned s')

/-- Two messages with the same boundary, limits, flags and count of parts, at alike stages. -/
inductive Alike (R : ρ → ρ → Prop) : Message ρ → Message ρ → Prop
  | mk {b : Boundary} {l : Limits} {st st' : Stage ρ} {pt ptk : Bool} {y : Nat} :
      Stage.Alike R st st' → Alike R ⟨b, l, st, pt, ptk, y⟩ ⟨b, l, st', pt, ptk, y⟩

variable {m m' : Message ρ}

theorem Stage.Alike.source {st st' : Stage ρ} (h : Stage.Alike R st st') :
    R st.source st'.source := by
  cases h with
  | preamble h => exact h.base.base
  | body h => exact h.inner.base.base
  | exhausted h => exact h.inner.base
  | poisoned h => exact h

theorem Alike.source (h : Alike R m m') : R m.source m'.source := by
  cases h with
  | mk hs => exact hs.source

theorem Alike.yielded_eq (h : Alike R m m') : m.yielded = m'.yielded := by
  cases h
  rfl

theorem Alike.boundary_eq (h : Alike R m m') : m.boundary = m'.boundary := by
  cases h
  rfl

theorem Alike.limits_eq (h : Alike R m m') : m.limits = m'.limits := by
  cases h
  rfl

theorem ofBoundary_alike {src src' : ρ} (h : R src src') (b : Boundary) (limits : Limits) :
    Alike R (ofBoundary src b limits) (ofBoundary src' b limits) :=
  .mk (.preamble (Scanner.alike_new (Scanner.alike_new h _) _))

theorem poison_agree {α : Type} (h : Alike R m m') (f : Failure) {s s' : ρ} (hs : R s s') :
    Agree (Alike R) (m.poison f s : Except Failure α × Message ρ) (m'.poison f s') := by
  cases h
  exact ⟨rfl, .mk (.poisoned hs)⟩

theorem takePreamble_agree (h : Alike R m m') :
    Except.Agree Eq (Alike R) m.takePreamble m'.takePreamble := by
  cases h with
  | mk hs =>
    unfold takePreamble
    split
    · exact .error rfl
    · cases hs with
      | preamble hseg => exact .ok (.mk (.preamble hseg))
      | body _ => exact .error rfl
      | exhausted _ => exact .error rfl
      | poisoned _ => exact .error rfl

theorem takeParts_agree (h : Alike R m m') :
    Except.Agree Eq (Alike R) m.takeParts m'.takeParts := by
  cases h with
  | mk hs =>
    unfold takeParts
    split
    · exact .error rfl
    · exact .ok (.mk hs)

variable [ByteReader ρ]

theorem heldBy_eq (hR : LoopsAlike R) {sc sc' : Scanner ρ} (h : Scanner.Alike R sc sc') :
    heldBy sc = heldBy sc' := by
  unfold heldBy
  rw [h.window, h.source.pending, hR.bound h.base]

theorem held_eq (hR : LoopsAlike R) (h : Alike R m m') : m.held = m'.held := by
  cases h with
  | mk hs =>
    cases hs with
    | preamble h => simp only [held, h.window, h.source.pending, heldBy_eq hR h.base]
    | body h =>
      simp only [held, h.pending, h.inner.window, h.inner.source.pending, heldBy_eq hR h.inner.base]
    | exhausted h => simp only [held, h.pending, heldBy_eq hR h.inner]
    | poisoned h => exact hR.bound h

theorem readPreamble_agree (hR : LoopsAlike R) (h : Alike R m m') (n : Option Nat) :
    Agree (Alike R) (m.readPreamble n) (m'.readPreamble n) := by
  cases h with
  | mk hs =>
    cases hs with
    | preamble hseg =>
      have hg := (Scanner.loopsAlike (Scanner.loopsAlike hR)).readSome hseg n
      exact ⟨hg.bytes?_eq, .mk (.preamble hg.rest)⟩
    | body hb => exact ⟨rfl, .mk (.body hb)⟩
    | exhausted hr => exact ⟨rfl, .mk (.exhausted hr)⟩
    | poisoned hs => exact ⟨rfl, .mk (.poisoned hs)⟩

theorem readBody_agree (hR : LoopsAlike R) (h : Alike R m m') (n : Option Nat) :
    Agree (Alike R) (m.readBody n) (m'.readBody n) := by
  cases h with
  | mk hs =>
    cases hs with
    | preamble hseg => exact ⟨rfl, .mk (.preamble hseg)⟩
    | body hb =>
      have hg := (Pushback.loopsAlike (Scanner.loopsAlike (Scanner.loopsAlike hR))).readSome hb n
      exact ⟨hg.bytes?_eq, .mk (.body hg.rest)⟩
    | exhausted hr => exact ⟨rfl, .mk (.exhausted hr)⟩
    | poisoned hs => exact ⟨rfl, .mk (.poisoned hs)⟩

/-- Moving on from alike segments of alike messages: the rest of the segment is skipped alike,
and the next part's header block is read alike. -/
theorem enter_agree (hR : LoopsAlike R) (h : Alike R m m') {seg seg' : Segment ρ}
    (hseg : Scanner.Alike (Scanner.Alike R) seg seg') :
    Agree (Alike R) (m.enter seg) (m'.enter seg') := by
  obtain ⟨r, x, x', hx, hx', hxx⟩ := (Scanner.drain_agree (Scanner.loopsAlike hR) hseg).elim
  unfold enter
  rw [hx, hx']
  cases r with
  | error f => exact poison_agree h f hxx.base.base
  | ok _ =>
    have hi := Scanner.intoRemaining_agree (Scanner.loopsAlike hR) hxx
    simp only
    generalize x.intoRemaining = o at hi ⊢
    generalize x'.intoRemaining = o' at hi ⊢
    cases hi with
    | error he =>
      obtain ⟨f, y, y', rfl, rfl, hy⟩ := he.elim
      exact poison_agree h f hy.base
    | @ok rest rest' hrest =>
      cases h with
      | @mk b l st st' pt ptk y hs =>
        simp only [hxx.found]
        split
        · exact ⟨rfl, .mk (.exhausted hrest)⟩
        · split
          · exact ⟨rfl, .mk (.exhausted hrest)⟩
          · -- the next part's header block, read within the separator's scanner
            have hb := Headers.readBlock_agree (Scanner.loopsAlike (Scanner.loopsAlike hR))
              (Scanner.alike_withSource hrest b.interPart) l
            generalize Headers.readBlock (Scanner.withSource rest b.interPart) l = o at hb ⊢
            generalize Headers.readBlock (Scanner.withSource rest' b.interPart) l = o' at hb ⊢
            cases hb with
            | error he =>
              obtain ⟨f, z, z', rfl, rfl, hz⟩ := he.elim
              exact poison_agree (.mk hs) f hz.base.base
            | ok hok =>
              obtain ⟨hd, body, body', rfl, rfl, hbody⟩ := hok.elim
              exact ⟨rfl, .mk (.body hbody)⟩


theorem advance_agree (hR : LoopsAlike R) (h : Alike R m m') :
    Agree (Alike R) m.advance m'.advance := by
  cases h with
  | mk hs =>
    cases hs with
    | preamble hseg => exact enter_agree hR (.mk (.preamble hseg)) hseg
    | body hb =>
      obtain ⟨data, e, x, x', hg, hg', hx⟩ :=
        ((Pushback.loopsAlike (Scanner.loopsAlike (Scanner.loopsAlike hR))).readToEnd hb).elim
      simp only [advance, hg, hg']
      cases e with
      | failed => exact poison_agree (.mk (.body hb)) _ hx.inner.base.base
      | filled | ended => exact enter_agree hR (.mk (.body hb)) hx.inner
    | exhausted hr => exact ⟨rfl, .mk (.exhausted hr)⟩
    | poisoned hs => exact ⟨rfl, .mk (.poisoned hs)⟩

theorem nextPart_agree (hR : LoopsAlike R) (h : Alike R m m') :
    Agree (Alike R) m.nextPart m'.nextPart := by
  obtain ⟨r, x, x', hx, hx', hxx⟩ := (advance_agree hR h).elim
  unfold nextPart
  rw [hx, hx']
  cases hxx with
  | mk hs =>
    rcases r with f | _ | hd
    · exact ⟨rfl, .mk hs⟩
    · exact ⟨rfl, .mk hs⟩
    · -- both moves leave their messages at stages of the same kind
      cases hs with
      | preamble h => exact ⟨rfl, .mk (.preamble h)⟩
      | body h => exact ⟨rfl, .mk (.body h)⟩
      | exhausted h => exact ⟨rfl, .mk (.exhausted h)⟩
      | poisoned h => exact ⟨rfl, .mk (.poisoned h)⟩

theorem intoEpilogue_agree (hR : LoopsAlike R) (h : Alike R m m') :
    Except.Agree (Agree R) (Pushback.Alike R) m.intoEpilogue m'.intoEpilogue := by
  -- an exhausted message is past its parts: the rest up to the closing delimiter is skipped
  have hpast : ∀ (b l pt ptk y) {rest rest' : Pushback (Scanner ρ)},
      Pushback.Alike (Scanner.Alike R) rest rest' →
      Except.Agree (Agree R) (Pushback.Alike R)
        (⟨b, l, .exhausted rest, pt, ptk, y⟩ : Message ρ).intoEpilogue
        (⟨b, l, .exhausted rest', pt, ptk, y⟩ : Message ρ).intoEpilogue := by
    intro b l pt ptk y rest rest' hr
    obtain ⟨data, e, x, x', hg, hg', hx⟩ :=
      ((Pushback.loopsAlike (Scanner.loopsAlike hR)).readToEnd hr).elim
    simp only [intoEpilogue, hg, hg']
    cases e with
    | failed => exact .error ⟨rfl, hx.inner.base⟩
    | filled | ended => exact Scanner.intoRemaining_agree hR hx.inner
  -- otherwise the stream up to the current separator is skipped first
  cases h with
  | @mk b l st st' pt ptk y hs =>
    cases hs with
    | @preamble seg seg' hseg =>
      have hi := Scanner.intoRemaining_agree (Scanner.loopsAlike hR) hseg
      unfold intoEpilogue
      dsimp only
      generalize seg.intoRemaining = o at hi ⊢
      generalize seg'.intoRemaining = o' at hi ⊢
      cases hi with
      | error he =>
        obtain ⟨f, z, z', rfl, rfl, hz⟩ := he.elim
        exact .error ⟨rfl, hz.base⟩
      | ok hr => exact hpast b l pt ptk y hr
    | @body bd bd' hb =>
      have hi := Scanner.intoRemaining_agree (Scanner.loopsAlike hR) hb.inner
      unfold intoEpilogue
      dsimp only
      generalize bd.inner.intoRemaining = o at hi ⊢
      generalize bd'.inner.intoRemaining = o' at hi ⊢
      cases hi with
      | error he =>
        obtain ⟨f, z, z', rfl, rfl, hz⟩ := he.elim
        exact .error ⟨rfl, hz.base⟩
      | ok hr => exact hpast b l pt ptk y hr
    | exhausted hr => exact hpast b l pt ptk y hr
    | poisoned hs => exact .error ⟨rfl, hs⟩

end Message

theorem Except.Agree.mapError {ε ε' α : Type} {A : α → α → Prop} {o o' : Except ε α}
    (h : Except.Agree Eq A o o') (f : ε → ε') :
    Except.Agree Eq A (o.mapError f) (o'.mapError f) := by
  cases h with
  | error he =>
    subst he
    exact .error rfl
  | ok ha => exact .ok ha

namespace Message

variable {ρ : Type} {R : ρ → ρ → Prop}

theorem withLimits_agree {src src' : ρ} (h : R src src') (token : List UInt8) (limits : Limits) :
    Except.Agree Eq (Alike R) (withLimits src token limits) (withLimits src' token limits) := by
  unfold withLimits
  cases limits.validate with
  | error e => exact .error rfl
  | ok _ => exact .ok (ofBoundary_alike h _ _)

theorem ofContentType_agree (parse : String → Option MediaType) {src src' : ρ} (h : R src src')
    (contentType : String) :
    Except.Agree Eq (Alike R) (ofContentType parse src contentType)
      (ofContentType parse src' contentType) := by
  unfold ofContentType
  cases MediaType.multipartBoundary parse contentType with
  | error e => exact .error rfl
  | ok b => exact .ok (ofBoundary_alike h _ _)

end Message

theorem Setup.build_agree {ρ : Type} {R : ρ → ρ → Prop} (parse : String → Option MediaType)
    (setup : Setup) {src src' : ρ} (h : R src src') :
    Except.Agree Eq (Message.Alike R) (setup.build parse src) (setup.build parse src') := by
  unfold Setup.build
  split
  · exact (Message.ofContentType_agree parse h _).mapError _
  · split
    · exact (Message.withLimits_agree h _ _).mapError _
    · split
      · exact (Message.withLimits_agree h _ _).mapError _
      · exact .ok (Message.ofBoundary_alike h _ _)


/-! ## Message scripts -/

/-- Two sessions in the same context over alike messages, or both ended over related sources. -/
inductive Session.Alike {ρ : Type} (R : ρ → ρ → Prop) : Session ρ → Session ρ → Prop
  | live {m m' : Message ρ} {ctx : Context} : Message.Alike R m m' →
      Session.Alike R (.live m ctx) (.live m' ctx)
  | ended {s s' : ρ} : R s s' → Session.Alike R (.ended s) (.ended s')

theorem Session.Alike.source {ρ : Type} {R : ρ → ρ → Prop} {s s' : Session ρ}
    (h : Session.Alike R s s') : R s.source s'.source := by
  cases h with
  | live hm => exact hm.source
  | ended hs => exact hs

namespace Script

variable {ρ : Type} [ByteReader ρ] {R : ρ → ρ → Prop} {m m' : Message ρ}

theorem atMessage_agree (hR : LoopsAlike R) (op : Op) (h : Message.Alike R m m') :
    Agree (Session.Alike R) (atMessage op m) (atMessage op m') := by
  cases op
  case preamble =>
    have ht := Message.takePreamble_agree h
    simp only [atMessage]
    generalize m.takePreamble = o at ht ⊢
    generalize m'.takePreamble = o' at ht ⊢
    cases ht with
    | error he =>
      subst he
      exact ⟨rfl, .live h⟩
    | ok hm => exact ⟨rfl, .live hm⟩
  case parts =>
    have ht := Message.takeParts_agree h
    simp only [atMessage]
    generalize m.takeParts = o at ht ⊢
    generalize m'.takeParts = o' at ht ⊢
    cases ht with
    | error he =>
      subst he
      exact ⟨rfl, .live h⟩
    | ok hm => exact ⟨rfl, .live hm⟩
  case epilogue =>
    have he := Message.intoEpilogue_agree hR h
    simp only [atMessage]
    generalize m.intoEpilogue = o at he ⊢
    generalize m'.intoEpilogue = o' at he ⊢
    cases he with
    | error he =>
      obtain ⟨f, s, s', rfl, rfl, hs⟩ := he.elim
      exact ⟨rfl, .ended hs⟩
    | ok hp =>
      have hg := (Pushback.loopsAlike hR).readToEnd hp
      exact ⟨by simp only [hg.bytes?_eq], .ended hg.rest.inner⟩
  case partsYielded => exact ⟨by simp only [atMessage, h.yielded_eq], .live h⟩
  case boundary => exact ⟨by simp only [atMessage, h.boundary_eq], .live h⟩
  case config => exact ⟨by simp only [atMessage, h.limits_eq], .live h⟩
  all_goals exact ⟨rfl, .live h⟩

theorem inPreamble_agree (hR : LoopsAlike R) (op : Op) (h : Message.Alike R m m') :
    Agree (Session.Alike R) (inPreamble op m) (inPreamble op m') := by
  cases op
  case read n =>
    obtain ⟨r, x, x', hx, hx', hxx⟩ := (Message.readPreamble_agree hR h (some n)).elim
    simp only [inPreamble, hx, hx']
    exact ⟨rfl, .live hxx⟩
  case readAll =>
    obtain ⟨r, x, x', hx, hx', hxx⟩ := (Message.readPreamble_agree hR h none).elim
    simp only [inPreamble, hx, hx']
    exact ⟨rfl, .live hxx⟩
  case unreadable k reason =>
    cases k
    case read => exact ⟨rfl, .live h⟩
    all_goals
      simp only [inPreamble]
      exact atMessage_agree hR _ h
  all_goals
    simp only [inPreamble]
    exact atMessage_agree hR _ h

/-- A move through the parts, by induction on its fuel, when the operations run on each part
answer alike on alike messages. -/
theorem eachPart_agree (hR : LoopsAlike R)
    {onEach : Part → Message ρ → List Answer × Message ρ}
    (hon : ∀ p {m m' : Message ρ}, Message.Alike R m m' →
      Agree (Message.Alike R) (onEach p m) (onEach p m')) :
    ∀ (fuel : Nat) {m m' : Message ρ} (acc : List (Part × List Answer)),
      Message.Alike R m m' →
      Agree (Message.Alike R) (eachPart onEach fuel m acc) (eachPart onEach fuel m' acc)
  | 0, _, _, _, h => ⟨rfl, h⟩
  | fuel + 1, m, m', acc, h => by
    obtain ⟨r, x, x', hx, hx', hxx⟩ := (Message.nextPart_agree hR h).elim
    simp only [eachPart, hx, hx']
    rcases r with f | _ | p
    · exact ⟨rfl, hxx⟩
    · exact ⟨rfl, hxx⟩
    · obtain ⟨a, y, y', hy, hy', hyy⟩ := (hon p hxx).elim
      simp only [hy, hy']
      split
      · exact ⟨rfl, hyy⟩
      · exact eachPart_agree hR hon fuel _ hyy

/- The script runner recurses through nested messages over part bodies, so each statement is
taken over every stream type and every relation that loops alike; the recursion follows the
runner's own. -/
mutual

/-- Scripts run on alike sessions answer alike and leave alike sessions. -/
theorem run_agree {ρ : Type} [ByteReader ρ] {R : ρ → ρ → Prop} (hR : LoopsAlike R)
    (libs : Libraries) (ops : List Op) {s s' : Session ρ} (h : Session.Alike R s s') :
    Agree (Session.Alike R) (run libs ops s) (run libs ops s') := by
  match ops with
  | [] =>
    rw [run, run]
    exact ⟨rfl, h⟩
  | op :: rest =>
    obtain ⟨a, x, x', hx, hx', hxx⟩ := (step_agree hR libs op h).elim
    obtain ⟨as, y, y', hy, hy', hyy⟩ := (run_agree hR libs rest hxx).elim
    rw [run, run]
    simp only [hx, hx', hy, hy']
    split
    · exact ⟨rfl, hxx⟩
    · exact ⟨rfl, hyy⟩
termination_by 3 * sizeOf ops

theorem step_agree {ρ : Type} [ByteReader ρ] {R : ρ → ρ → Prop} (hR : LoopsAlike R)
    (libs : Libraries) (op : Op) {s s' : Session ρ} (h : Session.Alike R s s') :
    Agree (Session.Alike R) (step libs op s) (step libs op s') := by
  cases h with
  | ended hs =>
    rw [step.eq_def, step.eq_def]
    exact ⟨rfl, .ended hs⟩
  | @live m m' ctx hm =>
    rw [step.eq_def, step.eq_def]
    cases ctx with
    | message => exact atMessage_agree hR op hm
    | preamble => exact inPreamble_agree hR op hm
    | parts => exact inParts_agree hR libs op hm
    | part p =>
      simp only
      split
      · obtain ⟨a, x, x', hx, hx', hxx⟩ := (partStep_agree hR libs op p hm).elim
        simp only [hx, hx']
        exact ⟨rfl, .live hxx⟩
      · exact inParts_agree hR libs op hm
termination_by 3 * sizeOf op + 2

theorem inParts_agree {ρ : Type} [ByteReader ρ] {R : ρ → ρ → Prop} (hR : LoopsAlike R)
    (libs : Libraries) (op : Op) {m m' : Message ρ} (h : Message.Alike R m m') :
    Agree (Session.Alike R) (inParts libs op m) (inParts libs op m') := by
  cases op
  case next =>
    obtain ⟨r, x, x', hx, hx', hxx⟩ := (Message.nextPart_agree hR h).elim
    rw [inParts.eq_def, inParts.eq_def]
    simp only [hx, hx']
    rcases r with f | _ | p <;> exact ⟨rfl, .live hxx⟩
  case each ops =>
    rw [inParts.eq_def, inParts.eq_def, Message.held_eq hR h]
    have he :=
      eachPart_agree hR (fun p _ _ hm => partSteps_agree hR libs ops p hm) (m'.held + 1) [] h
    exact ⟨he.answer, .live he.state⟩
  case partsYielded =>
    rw [inParts.eq_def, inParts.eq_def]
    exact ⟨by simp only [h.yielded_eq], .live h⟩
  -- any other operation is refused when it acts on a part, else answered by the message
  all_goals
    rw [inParts.eq_def, inParts.eq_def]
    simp only
    split
    · exact ⟨rfl, .live h⟩
    · exact atMessage_agree hR _ h
termination_by 3 * sizeOf op + 1

theorem partSteps_agree {ρ : Type} [ByteReader ρ] {R : ρ → ρ → Prop} (hR : LoopsAlike R)
    (libs : Libraries) (ops : List Op) (p : Part) {m m' : Message ρ} (h : Message.Alike R m m') :
    Agree (Message.Alike R) (partSteps libs ops p m) (partSteps libs ops p m') := by
  match ops with
  | [] =>
    rw [partSteps, partSteps]
    exact ⟨rfl, h⟩
  | op :: rest =>
    obtain ⟨a, x, x', hx, hx', hxx⟩ := (partStep_agree hR libs op p h).elim
    obtain ⟨as, y, y', hy, hy', hyy⟩ := (partSteps_agree hR libs rest p hxx).elim
    rw [partSteps, partSteps]
    simp only [hx, hx', hy, hy']
    split
    · exact ⟨rfl, hxx⟩
    · exact ⟨rfl, hyy⟩
termination_by 3 * sizeOf ops

theorem partStep_agree {ρ : Type} [ByteReader ρ] {R : ρ → ρ → Prop} (hR : LoopsAlike R)
    (libs : Libraries) (op : Op) (p : Part) {m m' : Message ρ} (h : Message.Alike R m m') :
    Agree (Message.Alike R) (partStep libs op p m) (partStep libs op p m') := by
  cases op
  case read n =>
    obtain ⟨r, x, x', hx, hx', hxx⟩ := (Message.readBody_agree hR h (some n)).elim
    rw [partStep.eq_def, partStep.eq_def]
    simp only [hx, hx']
    exact ⟨rfl, hxx⟩
  case readAll | text =>
    obtain ⟨r, x, x', hx, hx', hxx⟩ := (Message.readBody_agree hR h none).elim
    rw [partStep.eq_def, partStep.eq_def]
    simp only [hx, hx']
    exact ⟨rfl, hxx⟩
  case nested setup ops =>
    rw [partStep.eq_def, partStep.eq_def]
    cases h with
    | @mk b l st st' pt ptk y hs =>
      cases hs with
      | @body bd bd' hb =>
        -- the nested message reads the body; its own script runs over that stream type
        have hbuild := Setup.build_agree libs.parseMediaType setup hb
        simp only
        generalize setup.build libs.parseMediaType bd = o at hbuild ⊢
        generalize setup.build libs.parseMediaType bd' = o' at hbuild ⊢
        cases hbuild with
        | error he =>
          subst he
          exact ⟨rfl, .mk (.body hb)⟩
        | @ok inner inner' hin =>
          have hRb := Pushback.loopsAlike (Scanner.loopsAlike (Scanner.loopsAlike hR))
          obtain ⟨as, z, z', hz, hz', hzz⟩ := (run_agree hRb libs ops
            (Session.Alike.live hin : Session.Alike _ (.live inner .message)
              (.live inner' .message))).elim
          simp only [hz, hz']
          exact ⟨rfl, .mk (.body hzz.source)⟩
      | preamble hseg => exact ⟨rfl, .mk (.preamble hseg)⟩
      | exhausted hr => exact ⟨rfl, .mk (.exhausted hr)⟩
      | poisoned hs => exact ⟨rfl, .mk (.poisoned hs)⟩
  all_goals
    rw [partStep.eq_def, partStep.eq_def]
    exact ⟨rfl, h⟩
termination_by 3 * sizeOf op

end

end Script

/-- Message scripts over related sources give the same answers. -/
theorem Setup.runScript_congr {ρ : Type} [ByteReader ρ] {R : ρ → ρ → Prop}
    (hR : LoopsAlike R) (libs : Libraries) (setup : Setup) {src src' : ρ} (h : R src src')
    (ops : List Op) : setup.runScript libs src ops = setup.runScript libs src' ops := by
  have hb := Setup.build_agree libs.parseMediaType setup h
  unfold Setup.runScript
  generalize setup.build libs.parseMediaType src = o at hb ⊢
  generalize setup.build libs.parseMediaType src' = o' at hb ⊢
  cases hb with
  | error he =>
    subst he
    rfl
  | @ok m m' hm =>
    have hr := Script.run_agree hR libs ops
      (Session.Alike.live hm : Session.Alike R (.live m .message) (.live m' .message))
    simp only [hr.answer]


/-! ## What a reader sees -/

/-- How a source cuts its bytes into pieces changes no answer. Two sources with the same bytes
and the same end, whatever the sizes of their pieces, give the same answers to scanner scripts
straight over them or inside an outer scanner, the same pieces between delimiters, the same
header block with the same body after it (or the same failure), and the same answers to message
scripts, whatever libraries read their media types and build their header maps. -/
theorem answers_ignore_chunking (data : List UInt8) (fails : Bool) (c c' : Option Nat) :
    let s : Source := { data, chunk := c, fails }
    let s' : Source := { data, chunk := c', fails }
    (∀ (d : Delimiter) (ops : List ScanOp),
      runEach (ScanOp.run ScanFloor.plain) ops (some (Scanner.new s d)) =
        runEach (ScanOp.run ScanFloor.plain) ops (some (Scanner.new s' d))) ∧
    (∀ (o d : Delimiter) (ops : List ScanOp),
      runEach (ScanOp.run ScanFloor.within) ops (some (Scanner.new (Scanner.new s o) d)) =
        runEach (ScanOp.run ScanFloor.within) ops (some (Scanner.new (Scanner.new s' o) d))) ∧
    (∀ d : Delimiter, Scanner.segments s d = Scanner.segments s' d) ∧
    (∀ limits : Limits, Except.Agree (fun e e' => e.1 = e'.1)
      (fun r r' => r.1 = r'.1 ∧
        (ByteReader.readToEnd r.2).bytes? = (ByteReader.readToEnd r'.2).bytes?)
      (Headers.readBlock s limits) (Headers.readBlock s' limits)) ∧
    (∀ (libs : Libraries) (setup : Setup) (ops : List Op),
      setup.runScript libs s ops = setup.runScript libs s' ops) := by
  intro s s'
  have h : Source.SameBytes s s' := ⟨rfl, rfl⟩
  have hR := Source.loopsAlike
  refine ⟨fun d ops => runEach_plain_congr hR h d ops,
    fun o d ops => runEach_within_congr hR h o d ops, fun d => Scanner.segments_congr hR h d,
    fun limits => ?_, fun libs setup ops => Setup.runScript_congr hR libs setup h ops⟩
  -- the body after the block is read to its end, as a reader of the block does
  have hb := Headers.readBlock_agree hR h limits
  generalize Headers.readBlock s limits = o at hb ⊢
  generalize Headers.readBlock s' limits = o' at hb ⊢
  cases hb with
  | error he => exact .error he.answer
  | ok hb => exact .ok ⟨hb.answer, ((Pushback.loopsAlike hR).readToEnd hb.state).bytes?_eq⟩

end MimeMultipart
