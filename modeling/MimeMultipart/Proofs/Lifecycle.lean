import MimeMultipart.Proofs.Reading
/-!
# The one-shot life of a message

A message hands out its preamble, its parts and its epilogue each at most once and in that order,
and a failure while moving between parts leaves it poisoned. This module proves it of every run
of requests from a new message, over every source, failing sources included.

`Moved` says once what a move to the next part can do (`advance_moved`): find no part and be
exhausted, enter the body of one more part, stop at the parts limit and be exhausted, or fail and
be poisoned. Only the stop at the limit fails with the parts limit, as reading a header block
fails only for the source or a header limit (`Headers.readBlock_failure`). `Answers` says once
what any request can do (`request_answers`).

A run is a list of requests answered in turn with a history of events (`Message.requests`).
`Henceforth A Q H` says that in the history `H` every event after one satisfying `A` satisfies
`Q`. It holds of every run once `A` leads to a property of messages that every request keeps and
under which every answer satisfies `Q` (`requests_henceforth`).

## Main statements

* `Message.nextPart_eq`: a move hands out the part of the headers it read, numbered by the parts
  before it; the message is never found poisoned right after a move that read a header block.
* `Message.one_shot_over_every_run`: every run from a new message keeps the promises of
  `OneShot`.
-/

namespace MimeMultipart

/-! ## The failures of the readers under a message -/

/-- The failures with which reading a header block can end: the source failed, or a header limit
was passed. -/
inductive Failure.InBlock : Failure → Prop
  | source : InBlock .source
  | headerSize (n : Nat) : InBlock (.headerSize n)
  | headersLimit (n : Nat) : InBlock (.headersLimit n)

/-- A loop of reads fails only when the source does. -/
theorem Gathered.bytes?_failure {σ : Type} {g : Gathered σ} {f : Failure}
    (h : g.bytes? = .error f) : f = .source := by
  unfold Gathered.bytes? at h
  split at h
  · exact (Except.error.inj h).symm
  · cases h

section Readers

variable {σ τ : Type} [ByteReader σ] [ByteReader τ]

theorem Pushback.atEnd_failure {p p' : Pushback σ} {f : Failure}
    (h : p.atEnd = (.error f, p')) : f = .source := by
  unfold Pushback.atEnd at h
  split at h
  · cases h
  · split at h
    · exact (Except.error.inj (Prod.mk.inj h).1).symm
    · cases h
    · cases h

theorem Scanner.drain_failure {sc sc' : Scanner σ} {f : Failure}
    (h : sc.drain = (.error f, sc')) : f = .source := by
  have hmap := (Prod.mk.inj h).1
  cases hb : (ByteReader.readToEnd sc).bytes? with
  | error e =>
    rw [hb] at hmap
    cases hmap
    exact Gathered.bytes?_failure hb
  | ok a =>
    rw [hb] at hmap
    cases hmap

theorem Scanner.intoRemaining_failure {sc : Scanner σ} {f : Failure} {s : σ}
    (h : sc.intoRemaining = .error (f, s)) : f = .source := by
  unfold Scanner.intoRemaining at h
  rcases hd : sc.drain with ⟨_ | n, sc'⟩
  · rw [hd] at h
    cases h
    exact Scanner.drain_failure hd
  · rw [hd] at h
    cases h

namespace HeaderBlock

theorem readField_failure {s s' : τ} {max : Option Nat} {used : Nat} {f : Failure}
    (h : readField s max used = (.error f, s')) : f.InBlock := by
  have hf := (Prod.mk.inj h).1
  cases max with
  | none =>
    rw [Gathered.bytes?_failure hf]
    exact .source
  | some n =>
    simp only at hf
    split at hf
    · -- the field was read whole: it fits, or it is too long
      split at hf
      · cases hf
      · cases hf
        exact .headerSize n
    · rename_i e he
      cases hf
      rw [Gathered.bytes?_failure he]
      exact .source

theorem readLine_failure {line : τ} {max : Option Nat} {f : Failure} {t : τ}
    (h : readLine line max = .error (f, t)) : f.InBlock := by
  unfold readLine at h
  rcases hname : readField (Scanner.new line colon) max 0 with ⟨_ | name, names⟩
  · rw [hname] at h
    cases h
    exact readField_failure hname
  · rw [hname] at h
    simp only at h
    split at h
    · cases h
    · split at h
      · rename_i e he
        cases h
        rw [Scanner.intoRemaining_failure he]
        exact .source
      · split at h
        · rename_i hvalue
          cases h
          exact readField_failure hvalue
        · cases h

theorem finish_failure {rest : Pushback (Scanner σ)} {hs : Headers} {f : Failure} {s : σ}
    (h : finish rest hs = .error (f, s)) : f = .source := by
  unfold finish at h
  cases hr : rest.inner.intoRemaining with
  | error e =>
    rw [hr] at h
    cases h
    exact Scanner.intoRemaining_failure hr
  | ok body =>
    rw [hr] at h
    cases h

/-- The loop over the lines of a block fails only for the source or a header limit; the induction
is on its fuel. -/
theorem lines_failure (limits : Limits) :
    ∀ (fuel : Nat) (rest : Pushback (Scanner σ)) (held : List Header) (count : Nat) {f : Failure}
      {s : σ}, lines limits fuel rest held count = .error (f, s) → f.InBlock := by
  intro fuel
  induction fuel with
  | zero =>
    intro rest held count f s h
    rw [finish_failure h]
    exact .source
  | succ fuel ih =>
    intro rest held count f s h
    unfold lines at h
    split at h
    · rename_i hend
      cases h
      rw [Pushback.atEnd_failure hend]
      exact .source
    · rw [finish_failure h]
      exact .source
    · split at h
      · rename_i hline
        cases h
        exact readLine_failure hline
      · split at h
        · rename_i hrem
          cases h
          rw [Scanner.intoRemaining_failure hrem]
          exact .source
        · split at h
          · rw [finish_failure h]
            exact .source
          · -- a header was read: the count is checked, then the loop goes on
            split at h
            · split at h
              · cases h
                exact .headersLimit _
              · exact ih _ _ _ h
            · exact ih _ _ _ h

end HeaderBlock

/-- Reading a header block fails only for the source or a header limit. -/
theorem Headers.readBlock_failure {src : σ} {limits : Limits} {f : Failure} {s : σ}
    (h : Headers.readBlock src limits = .error (f, s)) : f.InBlock := by
  unfold Headers.readBlock at h
  dsimp only at h
  split at h
  · cases h
    exact .source
  · split at h
    · cases h
    · exact HeaderBlock.lines_failure limits _ _ _ _ h

end Readers

/-! ## Moves between parts -/

namespace Message

variable {ρ : Type}

inductive Stage.Kind where
  | preamble
  | body
  | exhausted
  | poisoned
  deriving DecidableEq

def Stage.kind : Stage ρ → Stage.Kind
  | .preamble _ => .preamble
  | .body _ => .body
  | .exhausted _ => .exhausted
  | .poisoned _ => .poisoned

/-- What a move to the next part can do to `m`. It changes only the stage and the count of parts:
it finds no part and is exhausted, enters the body of one more part, stops at the parts limit and
is exhausted, or fails and is poisoned, for an earlier failure, the source or a header limit. -/
inductive Moved (m : Message ρ) : Except Failure (Option Headers) × Message ρ → Prop
  | none (rest : Pushback (Scanner ρ)) : Moved m (.ok none, { m with stage := .exhausted rest })
  | part (hs : Headers) (body : Body ρ) :
      Moved m (.ok (some hs), { m with stage := .body body, yielded := m.yielded + 1 })
  | limit (rest : Pushback (Scanner ρ)) :
      Moved m (.error (.partsLimit (m.limits.maxParts.getD m.yielded)),
        { m with stage := .exhausted rest })
  | fail {f : Failure} (s : ρ) : f = .state .poisoned ∨ f.InBlock →
      Moved m (.error f, { m with stage := .poisoned s })

/-- The kind of stage a move leaves, read off what it answered. -/
def Stage.Kind.ofMove {α : Type} : Except Failure (Option α) → Stage.Kind
  | .ok none => .exhausted
  | .ok (some _) => .body
  | .error (.partsLimit _) => .exhausted
  | .error _ => .poisoned

@[simp] theorem Stage.Kind.ofMove_map {α β : Type} (g : α → β) (r : Except Failure (Option α)) :
    ofMove (r.map (Option.map g)) = ofMove r := by
  rcases r with f | _ | a
  · cases f <;> rfl
  · rfl
  · rfl

theorem Stage.Kind.ofMove_failure {α : Type} {f : Failure} (hf : ∀ n, f ≠ .partsLimit n) :
    ofMove (.error f : Except Failure (Option α)) = .poisoned := by
  cases f with
  | partsLimit n => exact absurd rfl (hf n)
  | _ => rfl

/-- A move leaves the kind of stage its answer says. -/
theorem Moved.kind {m : Message ρ} {r : Except Failure (Option Headers) × Message ρ}
    (h : Moved m r) : r.2.stage.kind = Stage.Kind.ofMove r.1 := by
  cases h with
  | none rest => rfl
  | part hs body => rfl
  | limit rest => rfl
  | fail s hf =>
    rcases hf with rfl | hf
    · rfl
    · cases hf <;> rfl

theorem Moved.flags {m : Message ρ} {r : Except Failure (Option Headers) × Message ρ}
    (h : Moved m r) : r.2.preambleTaken = m.preambleTaken ∧ r.2.partsTaken = m.partsTaken := by
  cases h <;> exact ⟨rfl, rfl⟩

theorem Moved.yielded {m : Message ρ} {r : Except Failure (Option Headers) × Message ρ}
    (h : Moved m r) :
    (∃ hs, r.1 = .ok (some hs) ∧ r.2.yielded = m.yielded + 1) ∨
      ((∀ hs, r.1 ≠ .ok (some hs)) ∧ r.2.yielded = m.yielded) := by
  cases h with
  | part hs body => exact .inl ⟨hs, rfl, rfl⟩
  | none rest => exact .inr ⟨fun _ => nofun, rfl⟩
  | limit rest => exact .inr ⟨fun _ => nofun, rfl⟩
  | fail s _ => exact .inr ⟨fun _ => nofun, rfl⟩

variable [ByteReader ρ]

theorem enter_moved (m : Message ρ) (seg : Segment ρ) : Moved m (m.enter seg) := by
  unfold enter poison
  split
  next f seg' hd =>
    rw [Scanner.drain_failure hd]
    exact .fail _ (.inr .source)
  next n seg' hd =>
    split
    next f bounded hr =>
      rw [Scanner.intoRemaining_failure hr]
      exact .fail _ (.inr .source)
    next rest hr =>
      split
      · exact .none rest
      · split
        · exact .limit rest
        · split
          next f s hb => exact .fail _ (.inr (Headers.readBlock_failure hb))
          next hs body hb => exact .part hs body

/-- Every move does what `Moved` says. -/
theorem advance_moved (m : Message ρ) : Moved m m.advance := by
  obtain ⟨b, l, st, pt, ptk, y⟩ := m
  cases st with
  | preamble seg => exact enter_moved _ seg
  | body bd =>
    simp only [advance]
    split
    · exact .fail _ (.inr .source)
    · exact enter_moved _ _
  | exhausted rest => exact .none rest
  | poisoned s => exact .fail s (.inl rfl)

theorem advance_of_exhausted {m : Message ρ} (h : m.stage.kind = .exhausted) :
    m.advance = (.ok none, m) := by
  unfold advance
  split <;> simp_all [Stage.kind]

theorem advance_of_poisoned {m : Message ρ} (h : m.stage.kind = .poisoned) :
    m.advance = (.error (.state .poisoned), m) := by
  obtain ⟨b, l, st, pt, ptk, y⟩ := m
  cases st <;> simp_all [advance, Stage.kind]

/-- A move hands out the part of the headers it read, numbered by the parts before it, and
otherwise answers as the move does: right after a move that read a header block the message is
in the new part's body, so it is never found poisoned there. -/
theorem nextPart_eq (m : Message ρ) :
    m.nextPart = (m.advance.1.map (Option.map (Part.mk m.yielded)), m.advance.2) := by
  have hmoved := advance_moved m
  rcases hadv : m.advance with ⟨r, m'⟩
  rw [hadv] at hmoved
  cases hmoved with
  | none rest => simp [nextPart, hadv, Except.map]
  | part hs body => simp [nextPart, hadv, Except.map]
  | limit rest => simp [nextPart, hadv, Except.map]
  | fail s _ => simp [nextPart, hadv, Except.map]


end Message

/-! ## Requests and their histories -/

/-- A request made of a message before its epilogue is taken: taking the preamble, requesting the
parts, or a call of a reader (`Call`), which reads from the preamble or from the current part's
body, or moves to the next part. -/
inductive Request where
  | takePreamble
  | takeParts
  | call (k : Call)

/-- What a request gave back. -/
inductive Event where
  | preamble (r : Except StateError Unit)
  | parts (r : Except StateError Unit)
  | reply (r : Reply)

namespace Event

def part? : Event → Option Part
  | .reply (.part (.ok (some p))) => some p
  | _ => none

/-- The event, if it is the answer of a move, is `r`. -/
def MoveGives (r : Except Failure (Option Part)) (y : Event) : Prop :=
  ∀ r', y = .reply (.part r') → r' = r

/-- A move failed, for another cause than the parts limit. -/
def MoveFailed (x : Event) : Prop :=
  ∃ f, x = .reply (.part (.error f)) ∧ ∀ n, f ≠ .partsLimit n

/-- A move stopped at the parts limit. -/
def MoveLimited (x : Event) : Prop :=
  ∃ n, x = .reply (.part (.error (.partsLimit n)))

theorem part?_of_not_move {x : Event} (h : ∀ a, x ≠ .reply (.part a)) : x.part? = none := by
  match x with
  | .reply (.part a) => exact absurd rfl (h a)
  | .reply (.bytes _) => rfl
  | .preamble _ => rfl
  | .parts _ => rfl

end Event

/-- In the history `H`, every event after one that satisfies `A` satisfies `Q`. -/
def Henceforth (A Q : Event → Prop) (H : List Event) : Prop :=
  ∀ H₁ H₂, H = H₁ ++ H₂ → (∃ x ∈ H₁, A x) → ∀ y ∈ H₂, Q y

namespace Message

variable {ρ : Type} [ByteReader ρ]

def request (m : Message ρ) : Request → Event × Message ρ
  | .takePreamble =>
    match m.takePreamble with
    | .ok m' => (.preamble (.ok ()), m')
    | .error e => (.preamble (.error e), m)
  | .takeParts =>
    match m.takeParts with
    | .ok m' => (.parts (.ok ()), m')
    | .error e => (.parts (.error e), m)
  | .call k =>
    let r := m.call k
    (.reply r.1, r.2)

/-- Answers requests in turn, with the history of what they gave back. -/
def requests (m : Message ρ) : List Request → List Event × Message ρ
  | [] => ([], m)
  | q :: qs =>
    let r := m.request q
    let r' := r.2.requests qs
    (r.1 :: r'.1, r'.2)

/-- What one request can do to `m`. Taking the preamble sets its flag, and only while neither it
nor the parts were taken; requesting the parts sets theirs, and is refused only once they were
taken; a read leaves the stage of its kind; a move answers as `nextPart`. A refused request
changes nothing. -/
inductive Answers (m : Message ρ) : Event × Message ρ → Prop
  | takePreamble : m.preambleTaken = false → m.partsTaken = false →
      Answers m (.preamble (.ok ()), { m with preambleTaken := true })
  | refusePreamble (e : StateError) : Answers m (.preamble (.error e), m)
  | takeParts : m.partsTaken = false → Answers m (.parts (.ok ()), { m with partsTaken := true })
  | refuseParts (e : StateError) : m.partsTaken = true → Answers m (.parts (.error e), m)
  | read (r : Except Failure (List UInt8)) (st : Stage ρ) : st.kind = m.stage.kind →
      Answers m (.reply (.bytes r), { m with stage := st })
  | move : Answers m (.reply (.part m.nextPart.1), m.nextPart.2)

/-- Every request does what `Answers` says. -/
theorem request_answers (m : Message ρ) (q : Request) : Answers m (m.request q) := by
  obtain ⟨b, l, st, pt, ptk, y⟩ := m
  cases q with
  | takePreamble =>
    cases pt <;> cases ptk
    · cases st with
      | preamble seg => exact .takePreamble rfl rfl
      | body _ => exact .refusePreamble _
      | exhausted _ => exact .refusePreamble _
      | poisoned _ => exact .refusePreamble _
    all_goals exact .refusePreamble _
  | takeParts =>
    cases ptk
    · exact .takeParts rfl
    · exact .refuseParts _ rfl
  | call k =>
    cases k with
    | next => exact .move
    | preamble n => cases st <;> exact .read _ _ rfl
    | body n => cases st <;> exact .read _ _ rfl

/-! ## What each request keeps -/

/-- A request is a move, or it answers no move and leaves the kind of stage and the count of
parts alone. -/
theorem Answers.move_or_frame {m : Message ρ} {r : Event × Message ρ} (h : Answers m r) :
    r = (.reply (.part m.nextPart.1), m.nextPart.2) ∨
      ((∀ a, r.1 ≠ .reply (.part a)) ∧ r.2.stage.kind = m.stage.kind ∧
        r.2.yielded = m.yielded) := by
  cases h with
  | move => exact .inl rfl
  | read r st hst => exact .inr ⟨fun _ => nofun, hst, rfl⟩
  | takePreamble _ _ => exact .inr ⟨fun _ => nofun, rfl, rfl⟩
  | refusePreamble e => exact .inr ⟨fun _ => nofun, rfl, rfl⟩
  | takeParts _ => exact .inr ⟨fun _ => nofun, rfl, rfl⟩
  | refuseParts e _ => exact .inr ⟨fun _ => nofun, rfl, rfl⟩

/-- The flag of the preamble stays set, and taking the preamble sets it, which succeeds only while
neither the preamble nor the parts were taken. -/
theorem Answers.preambleTaken {m : Message ρ} {r : Event × Message ρ} (h : Answers m r) :
    (m.preambleTaken = true → r.2.preambleTaken = true) ∧
      (r.1 = .preamble (.ok ()) →
        m.preambleTaken = false ∧ m.partsTaken = false ∧ r.2.preambleTaken = true) := by
  cases h with
  | takePreamble hp hpt => exact ⟨fun _ => rfl, fun _ => ⟨hp, hpt, rfl⟩⟩
  | move =>
    rw [nextPart_eq]
    exact ⟨fun hp => ((advance_moved m).flags.1).trans hp, nofun⟩
  | refusePreamble e => exact ⟨id, nofun⟩
  | takeParts _ => exact ⟨id, nofun⟩
  | refuseParts _ _ => exact ⟨id, nofun⟩
  | read _ _ _ => exact ⟨id, nofun⟩

/-- The flag of the parts stays set, every request for the parts leaves it set, and one succeeds
only while it is not. -/
theorem Answers.partsTaken {m : Message ρ} {r : Event × Message ρ} (h : Answers m r) :
    (m.partsTaken = true → r.2.partsTaken = true) ∧
      (∀ e, r.1 = .parts e → r.2.partsTaken = true) ∧
      (r.1 = .parts (.ok ()) → m.partsTaken = false) := by
  cases h with
  | takeParts hpt => exact ⟨fun _ => rfl, fun _ _ => rfl, fun _ => hpt⟩
  | refuseParts e hpt => exact ⟨id, fun _ _ => hpt, nofun⟩
  | move =>
    rw [nextPart_eq]
    exact ⟨fun hpt => ((advance_moved m).flags.2).trans hpt, fun _ => nofun, nofun⟩
  | takePreamble _ _ => exact ⟨id, fun _ => nofun, nofun⟩
  | refusePreamble _ => exact ⟨id, fun _ => nofun, nofun⟩
  | read _ _ _ => exact ⟨id, fun _ => nofun, nofun⟩

theorem Answers.kind_of_move {m : Message ρ} {r : Event × Message ρ} (h : Answers m r)
    {a : Except Failure (Option Part)} (ha : r.1 = .reply (.part a)) :
    r.2.stage.kind = Stage.Kind.ofMove a := by
  rcases h.move_or_frame with rfl | ⟨hnot, -⟩
  · simp only [Event.reply.injEq, Reply.part.injEq] at ha
    subst ha
    rw [nextPart_eq, Stage.Kind.ofMove_map]
    exact (advance_moved m).kind
  · exact absurd ha (hnot a)

theorem Answers.of_exhausted {m : Message ρ} {r : Event × Message ρ} (h : Answers m r)
    (hm : m.stage.kind = .exhausted) : r.2.stage.kind = .exhausted ∧ r.1.MoveGives (.ok none) := by
  rcases h.move_or_frame with rfl | ⟨hnot, hkind, -⟩
  · have hnext : m.nextPart = (.ok none, m) := by
      rw [nextPart_eq, advance_of_exhausted hm]
      rfl
    rw [hnext]
    exact ⟨hm, fun _ he => (Reply.part.inj (Event.reply.inj he)).symm⟩
  · exact ⟨hkind.trans hm, fun a he => absurd he (hnot a)⟩

theorem Answers.of_poisoned {m : Message ρ} {r : Event × Message ρ} (h : Answers m r)
    (hm : m.stage.kind = .poisoned) :
    r.2.stage.kind = .poisoned ∧ r.1.MoveGives (.error (.state .poisoned)) := by
  rcases h.move_or_frame with rfl | ⟨hnot, hkind, -⟩
  · have hnext : m.nextPart = (.error (.state .poisoned), m) := by
      rw [nextPart_eq, advance_of_poisoned hm]
      rfl
    rw [hnext]
    exact ⟨hm, fun _ he => (Reply.part.inj (Event.reply.inj he)).symm⟩
  · exact ⟨hkind.trans hm, fun a he => absurd he (hnot a)⟩

/-- A request counts the part a move hands out, numbered by the parts before it, and no other. -/
theorem Answers.counts {m : Message ρ} {r : Event × Message ρ} (h : Answers m r) :
    (r.1.part? = none ∧ r.2.yielded = m.yielded) ∨
      ∃ hs, r.1.part? = some ⟨m.yielded, hs⟩ ∧ r.2.yielded = m.yielded + 1 := by
  rcases h.move_or_frame with rfl | ⟨hnot, -, hy⟩
  · rw [nextPart_eq]
    rcases (advance_moved m).yielded with ⟨hs, hr, hy⟩ | ⟨hr, hy⟩
    · exact .inr ⟨hs, by rw [hr]; rfl, hy⟩
    · refine .inl ⟨?_, hy⟩
      rcases ha : m.advance.1 with f | _ | hs
      · rfl
      · rfl
      · exact absurd ha (hr hs)
  · exact .inl ⟨Event.part?_of_not_move hnot, hy⟩

/-! ## Runs -/

/-- A property of messages that every request keeps. -/
def Stable (P : Message ρ → Prop) : Prop := ∀ m q, P m → P (m.request q).2

variable {P : Message ρ → Prop} {A Q : Event → Prop}

theorem requests_keep (hP : Stable P) (m : Message ρ) (qs : List Request) (h : P m) :
    P (m.requests qs).2 := by
  induction qs generalizing m with
  | nil => exact h
  | cons q qs ih => exact ih _ (hP m q h)

theorem requests_answer (hP : Stable P) (hQ : ∀ (m : Message ρ) q, P m → Q (m.request q).1)
    (m : Message ρ) (qs : List Request) (h : P m) : ∀ y ∈ (m.requests qs).1, Q y := by
  induction qs generalizing m with
  | nil => exact fun _ hy => absurd hy List.not_mem_nil
  | cons q qs ih =>
    intro y hy
    rcases List.mem_cons.1 hy with rfl | hy
    · exact hQ m q h
    · exact ih _ (hP m q h) y hy

theorem requests_enter (hP : Stable P) (hA : ∀ (m : Message ρ) q, A (m.request q).1 → P (m.request q).2)
    (m : Message ρ) (qs : List Request) (hx : ∃ x ∈ (m.requests qs).1, A x) :
    P (m.requests qs).2 := by
  induction qs generalizing m with
  | nil =>
    obtain ⟨x, hx, -⟩ := hx
    exact absurd hx List.not_mem_nil
  | cons q qs ih =>
    obtain ⟨x, hx, hAx⟩ := hx
    rcases List.mem_cons.1 hx with rfl | hx
    · exact requests_keep hP _ qs (hA m q hAx)
    · exact ih _ ⟨x, hx, hAx⟩

/-- Once an event leads to a property that every request keeps and under which every answer
satisfies `Q`, every later event satisfies `Q`. The induction is on the requests: the history
splits after its first event or further on. -/
theorem requests_henceforth (hP : Stable P) (hA : ∀ (m : Message ρ) q, A (m.request q).1 → P (m.request q).2)
    (hQ : ∀ (m : Message ρ) q, P m → Q (m.request q).1) (m : Message ρ) (qs : List Request) :
    Henceforth A Q (m.requests qs).1 := by
  induction qs generalizing m with
  | nil =>
    rintro H₁ H₂ hH ⟨x, hx, -⟩
    rw [(List.append_eq_nil_iff.1 hH.symm).1] at hx
    exact absurd hx List.not_mem_nil
  | cons q qs ih =>
    rintro H₁ H₂ hH ⟨x, hx, hAx⟩
    rcases List.cons_eq_append_iff.1 hH with ⟨rfl, -⟩ | ⟨H₁', rfl, hrest⟩
    · exact absurd hx List.not_mem_nil
    · rcases List.mem_cons.1 hx with rfl | hx
      · intro y hy
        exact requests_answer hP hQ _ qs (hA m q hAx) y (hrest ▸ List.mem_append_right _ hy)
      · exact ih _ H₁' H₂ hrest ⟨x, hx, hAx⟩

/-- Along a run the count of parts grows by the parts handed out, and they are numbered in turn
from the count before the run. -/
theorem requests_counts (m : Message ρ) (qs : List Request) :
    (m.requests qs).2.yielded = m.yielded + ((m.requests qs).1.filterMap Event.part?).length ∧
      ((m.requests qs).1.filterMap Event.part?).map Part.index =
        List.range' m.yielded ((m.requests qs).1.filterMap Event.part?).length := by
  induction qs generalizing m with
  | nil => exact ⟨rfl, rfl⟩
  | cons q qs ih =>
    obtain ⟨hy, hidx⟩ := ih (m.request q).2
    rcases (request_answers m q).counts with ⟨hnone, hy'⟩ | ⟨hs, hsome, hy'⟩
    · simp only [requests, List.filterMap_cons, hnone]
      rw [hy'] at hy hidx
      exact ⟨hy, hidx⟩
    · simp only [requests, List.filterMap_cons, hsome, List.map_cons, List.length_cons]
      rw [hy'] at hy hidx
      refine ⟨by omega, ?_⟩
      rw [hidx, List.range'_succ]

/-! ## The epilogue -/

/-- From an exhausted message the epilogue is still there: taking it fails only if the source
does. -/
theorem intoEpilogue_of_exhausted {m : Message ρ} (hm : m.stage.kind = .exhausted) {f : Failure}
    {s : ρ} (h : m.intoEpilogue = .error (f, s)) : f = .source := by
  obtain ⟨b, l, st, pt, ptk, y⟩ := m
  cases st with
  | exhausted rest =>
    simp only [intoEpilogue] at h
    split at h
    · exact (Prod.mk.inj (Except.error.inj h)).1.symm
    · exact Scanner.intoRemaining_failure h
  | preamble _ => cases hm
  | body _ => cases hm
  | poisoned _ => cases hm

/-- A poisoned message has no epilogue: taking it answers that the message is poisoned. -/
theorem intoEpilogue_of_poisoned {m : Message ρ} (hm : m.stage.kind = .poisoned) :
    ∃ s, m.intoEpilogue = .error (.state .poisoned, s) := by
  obtain ⟨b, l, st, pt, ptk, y⟩ := m
  cases st with
  | poisoned s => exact ⟨s, rfl⟩
  | preamble _ => cases hm
  | body _ => cases hm
  | exhausted _ => cases hm

/-! ## The promises of a message -/

/-- What a message promises over the history `H` of a run that left it as `m`: the preamble is
handed out at most once and never once the parts were requested; the parts are handed out at most
once; the count of parts is the number handed out, numbered from zero in turn; once no part
follows none ever does; a failure other than the parts limit poisons the message, for every later
move and for the epilogue; after the parts limit every later move finds no part and the epilogue
fails only if the source does; and a move hands out the part whose headers it read. -/
structure OneShot (H : List Event) (m : Message ρ) : Prop where
  preamble_once : Henceforth (· = .preamble (.ok ())) (· ≠ .preamble (.ok ())) H
  preamble_before_parts :
    Henceforth (fun x => ∃ e, x = .parts e) (· ≠ .preamble (.ok ())) H
  parts_once : Henceforth (· = .parts (.ok ())) (· ≠ .parts (.ok ())) H
  yielded_eq : m.yielded = (H.filterMap Event.part?).length
  numbered : (H.filterMap Event.part?).map Part.index = List.range (H.filterMap Event.part?).length
  none_stays : Henceforth (· = .reply (.part (.ok none))) (Event.MoveGives (.ok none)) H
  failure_poisons : Henceforth Event.MoveFailed (Event.MoveGives (.error (.state .poisoned))) H
  no_epilogue : (∃ x ∈ H, x.MoveFailed) → ∃ s, m.intoEpilogue = .error (.state .poisoned, s)
  limit_exhausts : Henceforth Event.MoveLimited (Event.MoveGives (.ok none)) H
  epilogue_after_limit :
    (∃ x ∈ H, x.MoveLimited) → ∀ f s, m.intoEpilogue = .error (f, s) → f = .source
  next_of_advance : m.nextPart = (m.advance.1.map (Option.map (Part.mk m.yielded)), m.advance.2)

theorem stable_preambleTaken : Stable fun m : Message ρ => m.preambleTaken = true :=
  fun m q h => (request_answers m q).preambleTaken.1 h

theorem stable_partsTaken : Stable fun m : Message ρ => m.partsTaken = true :=
  fun m q h => (request_answers m q).partsTaken.1 h

theorem stable_exhausted : Stable fun m : Message ρ => m.stage.kind = .exhausted :=
  fun m q h => ((request_answers m q).of_exhausted h).1

theorem stable_poisoned : Stable fun m : Message ρ => m.stage.kind = .poisoned :=
  fun m q h => ((request_answers m q).of_poisoned h).1

/-- A move leaves the kind of stage its answer says: exhausted when it found no part or stopped at
the limit, poisoned when it failed otherwise. -/
theorem request_kind_of_move {m : Message ρ} {q : Request} {a : Except Failure (Option Part)}
    (ha : (m.request q).1 = .reply (.part a)) :
    (m.request q).2.stage.kind = Stage.Kind.ofMove a :=
  (request_answers m q).kind_of_move ha

/-- Over every run, the preamble is handed out at most once and never once the parts were
requested, and the parts are handed out at most once: taking sets a flag that no request clears,
and a taking is refused once its flag is set. -/
theorem requests_take_once (m : Message ρ) (qs : List Request) :
    Henceforth (· = .preamble (.ok ())) (· ≠ .preamble (.ok ())) (m.requests qs).1 ∧
      Henceforth (fun x => ∃ e, x = .parts e) (· ≠ .preamble (.ok ())) (m.requests qs).1 ∧
      Henceforth (· = .parts (.ok ())) (· ≠ .parts (.ok ())) (m.requests qs).1 := by
  have hpre_refused : ∀ (m : Message ρ) q, m.preambleTaken = true ∨ m.partsTaken = true →
      (m.request q).1 ≠ .preamble (.ok ()) := by
    intro m q hflag he
    obtain ⟨hp, hpt, -⟩ := (request_answers m q).preambleTaken.2 he
    rcases hflag with h | h
    · exact Bool.noConfusion (h.symm.trans hp)
    · exact Bool.noConfusion (h.symm.trans hpt)
  have hparts_set : ∀ (m : Message ρ) q, (∃ e, (m.request q).1 = .parts e) →
      (m.request q).2.partsTaken = true :=
    fun m q ⟨e, he⟩ => (request_answers m q).partsTaken.2.1 e he
  refine ⟨?_, ?_, ?_⟩
  · exact requests_henceforth stable_preambleTaken
      (fun m q he => ((request_answers m q).preambleTaken.2 he).2.2)
      (fun m q h => hpre_refused m q (.inl h)) m qs
  · exact requests_henceforth stable_partsTaken hparts_set
      (fun m q h => hpre_refused m q (.inr h)) m qs
  · refine requests_henceforth stable_partsTaken (fun m q he => hparts_set m q ⟨_, he⟩) ?_ m qs
    intro m q h he
    exact Bool.noConfusion (h.symm.trans ((request_answers m q).partsTaken.2.2 he))

/-- Over every run, once a move finds no part or stops at the parts limit, every later move finds
no part; after the limit the epilogue is still there. -/
theorem requests_exhausted (m : Message ρ) (qs : List Request) :
    Henceforth (· = .reply (.part (.ok none))) (Event.MoveGives (.ok none)) (m.requests qs).1 ∧
      Henceforth Event.MoveLimited (Event.MoveGives (.ok none)) (m.requests qs).1 ∧
      ((∃ x ∈ (m.requests qs).1, x.MoveLimited) →
        ∀ f s, (m.requests qs).2.intoEpilogue = .error (f, s) → f = .source) := by
  have hlimit : ∀ (m : Message ρ) q, (m.request q).1.MoveLimited →
      (m.request q).2.stage.kind = .exhausted := fun m q ⟨n, he⟩ => request_kind_of_move he
  have hgives : ∀ (m : Message ρ) q, m.stage.kind = .exhausted →
      (m.request q).1.MoveGives (.ok none) := fun m q h => ((request_answers m q).of_exhausted h).2
  refine ⟨requests_henceforth stable_exhausted (fun m q he => request_kind_of_move he) hgives m qs,
    requests_henceforth stable_exhausted hlimit hgives m qs, fun hx _ _ => ?_⟩
  exact intoEpilogue_of_exhausted (requests_enter stable_exhausted hlimit m qs hx)

/-- Over every run, once a move fails other than at the parts limit, every later move and taking
the epilogue answer that the message is poisoned. -/
theorem requests_poisoned (m : Message ρ) (qs : List Request) :
    Henceforth Event.MoveFailed (Event.MoveGives (.error (.state .poisoned))) (m.requests qs).1 ∧
      ((∃ x ∈ (m.requests qs).1, x.MoveFailed) →
        ∃ s, (m.requests qs).2.intoEpilogue = .error (.state .poisoned, s)) := by
  have hfailed : ∀ (m : Message ρ) q, (m.request q).1.MoveFailed →
      (m.request q).2.stage.kind = .poisoned := fun m q ⟨f, he, hf⟩ =>
    (request_kind_of_move he).trans (Stage.Kind.ofMove_failure hf)
  exact ⟨requests_henceforth stable_poisoned hfailed
      (fun m q h => ((request_answers m q).of_poisoned h).2) m qs,
    fun hx => intoEpilogue_of_poisoned (requests_enter stable_poisoned hfailed m qs hx)⟩

/-- Over every source, including failing ones, and every run of requests from a new message, the
message keeps the promises of `OneShot`: its preamble and its parts are each handed out at most
once and the preamble never after the parts, the parts are counted and numbered in turn, no part
follows once none did, a failure poisons the message except at the parts limit, which leaves the
epilogue, and a move that read a header block always hands out its part. -/
theorem one_shot_over_every_run (src : ρ) (b : Boundary) (limits : Limits) (qs : List Request) :
    OneShot ((ofBoundary src b limits).requests qs).1 ((ofBoundary src b limits).requests qs).2 := by
  obtain ⟨hpre, hpre_parts, hparts⟩ := requests_take_once (ofBoundary src b limits) qs
  obtain ⟨hnone, hlimit, hepilogue⟩ := requests_exhausted (ofBoundary src b limits) qs
  obtain ⟨hfailed, hpoisoned⟩ := requests_poisoned (ofBoundary src b limits) qs
  -- a new message has handed out no part
  have hcounts := requests_counts (ofBoundary src b limits) qs
  rw [show (ofBoundary src b limits).yielded = 0 from rfl, Nat.zero_add] at hcounts
  exact ⟨hpre, hpre_parts, hparts, hcounts.1, by rw [hcounts.2, List.range_eq_range'], hnone,
    hfailed, hpoisoned, hlimit, hepilogue, nextPart_eq _⟩

end Message

end MimeMultipart
