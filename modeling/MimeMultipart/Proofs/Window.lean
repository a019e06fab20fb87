import MimeMultipart.Scanner.Buffer
import MimeMultipart.Proofs.ScannerStream
/-!
# The window invariant

A scanner's buffer keeps its cursor, its fill mark and the located delimiter in a fixed relation
(`Buffer.Sound`): a closed buffer is released; an open one has its cursor before its fill mark,
its fill mark within the buffer, no bytes before the first read and `2 * |d|` after it, and a
located delimiter starting at or after the cursor and ending at the fill mark.

Every request keeps the relation, also one that fails while the buffer is being topped up, and
in a buffer that has it no slice is out of range and no subtraction goes below zero, so no
request halts. Each request also moves the buffer as the scanner it lays out moves
(`read_refines`): a buffer is the scanner, laid out. Over every run of requests from a new
scanner (`window_invariant_holds`), the buffer keeps the relation, never halts, and lays out the
scanner that the same requests reach.
-/

namespace MimeMultipart

/-! ## The contract of a reader -/

/-- Pushed-back bytes are delivered at most as asked for, and so are those of a stream that keeps
the contract. -/
theorem Pushback.capped {σ : Type} [ByteReader σ] (h : ByteReader.Capped σ) :
    ByteReader.Capped (Pushback σ) := by
  rintro ⟨pending, inner⟩ n bs p' hread
  change Pushback.read ⟨pending, inner⟩ n = _ at hread
  unfold Pushback.read at hread
  split at hread
  · cases hread
    simp
  · split at hread
    · revert hread
      cases hr : ByteReader.read inner n with
      | mk d s =>
        intro hread
        cases hread
        exact h inner n bs s hr
    · cases hread
      simp only [List.length_take]
      omega

theorem Source.capped : ByteReader.Capped Source := by
  intro s n bs s' hread
  change Source.read s n = _ at hread
  unfold Source.read at hread
  split at hread
  · cases hread
    simp
  · split at hread
    · split at hread <;> cases hread
      simp
    · cases hread
      have : s.piece n ≤ n := by
        unfold Source.piece
        split <;> omega
      simp only [List.length_take]
      omega

namespace Scanner

theorem refill_phase {σ : Type} [ByteReader σ] (sc : Scanner σ) (ph : Phase) :
    { sc with phase := ph }.refill = sc.refill := rfl

namespace Buffer

variable {σ : Type}

/-! ## Checked slices and writes -/

theorem slice?_of_le {xs : List UInt8} {lo hi : Nat} (h : lo ≤ hi) (h' : hi ≤ xs.length) :
    slice? xs lo hi = some ((xs.drop lo).take (hi - lo)) := by
  simp [slice?, h, h']

theorem sub?_of_le {a b : Nat} (h : b ≤ a) : sub? a b = some (a - b) := by
  simp [sub?, h]

@[simp] theorem overwrite_nil (xs : List UInt8) (pos : Nat) : overwrite xs pos [] = xs := by
  simp [overwrite]

theorem length_overwrite {xs bs : List UInt8} {pos : Nat} (h : pos + bs.length ≤ xs.length) :
    (overwrite xs pos bs).length = xs.length := by
  simp only [overwrite, List.length_append, List.length_take, List.length_drop]
  omega

theorem take_overwrite {xs bs : List UInt8} {pos : Nat} (h : pos ≤ xs.length) :
    (overwrite xs pos bs).take (pos + bs.length) = xs.take pos ++ bs := by
  have hlen : (xs.take pos ++ bs).length = pos + bs.length := by simp; omega
  rw [overwrite, List.append_assoc, ← List.append_assoc (xs.take pos), ← hlen,
    List.take_left]

theorem overwrite_overwrite {xs bs cs : List UInt8} {pos : Nat}
    (h : pos + bs.length ≤ xs.length) :
    overwrite (overwrite xs pos bs) (pos + bs.length) cs = overwrite xs pos (bs ++ cs) := by
  have hlen : (xs.take pos ++ bs).length = pos + bs.length := by simp; omega
  -- past the first write, the bytes kept are those of `xs`
  have hdrop : (overwrite xs pos bs).drop (pos + bs.length + cs.length) =
      xs.drop (pos + (bs ++ cs).length) := by
    have hnil : (xs.take pos ++ bs).drop (pos + bs.length + cs.length) = [] :=
      List.drop_eq_nil_of_le (by omega)
    rw [overwrite, List.drop_append, hnil, List.nil_append, List.drop_drop, hlen,
      List.length_append]
    congr 1
    omega
  rw [overwrite, take_overwrite (by omega), hdrop, overwrite]
  simp only [List.append_assoc]

/-! ## The scanner a buffer lays out -/

@[simp] theorem scanner_delimiter (b : Buffer σ) : b.scanner.delimiter = b.delimiter := rfl

@[simp] theorem scanner_source (b : Buffer σ) : b.scanner.source = b.source := rfl

theorem scanner_window_of_open {b : Buffer σ} (hc : b.closed = false) :
    b.scanner.window = (b.window.drop b.cursor).take (b.located.getD b.filled - b.cursor) := by
  simp [scanner, hc]

theorem scanner_phase_located {b : Buffer σ} {pos : Nat} (hc : b.closed = false)
    (hp : b.primed = true) (hl : b.located = some pos) : b.scanner.phase = .located := by
  simp [scanner, hc, hp, hl]

theorem scanner_phase_drained {b : Buffer σ} (hc : b.closed = false) (hp : b.primed = true)
    (hl : b.located = none) (he : b.exhausted = true) : b.scanner.phase = .drained := by
  simp [scanner, hc, hp, hl, he]

theorem scanner_phase_scanning {b : Buffer σ} (hc : b.closed = false) (hp : b.primed = true)
    (hl : b.located = none) (he : b.exhausted = false) : b.scanner.phase = .scanning := by
  simp [scanner, hc, hp, hl, he]

theorem scanner_eq {b : Buffer σ} {sc : Scanner σ} (hd : b.delimiter = sc.delimiter)
    (hs : b.source = sc.source) (hw : b.scanner.window = sc.window)
    (hp : b.scanner.phase = sc.phase) : b.scanner = sc := by
  obtain ⟨d, src, w, ph⟩ := sc
  simp only at hd hs hw hp
  rw [← hd, ← hs, ← hw, ← hp]
  rfl

/-! ## The window invariant -/

/-- The window invariant. A closed buffer is released. An open one has its cursor before its fill
mark and its fill mark within the buffer; it has no bytes before the first read and `2 * |d|`
after it; a located delimiter starts at or after the cursor and ends at the fill mark. A buffer
not yet allocated has not met the end of the data. -/
structure Sound (b : Buffer σ) : Prop where
  released : b.closed = true → b.window = [] ∧ b.cursor = 0 ∧ b.filled = 0
  cursor_le : b.closed = false → b.cursor ≤ b.filled
  filled_le : b.closed = false → b.filled ≤ b.window.length
  length_eq : b.closed = false → b.window.length = if b.primed then 2 * b.delimiter.length else 0
  located : b.closed = false → ∀ pos, b.located = some pos →
    b.cursor ≤ pos ∧ pos + b.delimiter.length = b.filled
  unprimed : b.primed = false → b.exhausted = false

theorem sound_withSource (p : Pushback σ) (d : Delimiter) : (withSource p d).Sound where
  released := by simp [withSource]
  cursor_le := by simp [withSource]
  filled_le := by simp [withSource]
  length_eq := by simp [withSource]
  located := by simp [withSource]
  unprimed := by simp [withSource]

theorem scanner_withSource (p : Pushback σ) (d : Delimiter) :
    (withSource p d).scanner = Scanner.withSource p d :=
  scanner_eq rfl rfl (by simp [scanner, withSource, Scanner.withSource])
    (by simp [scanner, withSource, Scanner.withSource])

/-- A buffer not yet allocated has nothing read and nothing located. -/
theorem Sound.of_unprimed {b : Buffer σ} (hs : b.Sound) (hc : b.closed = false)
    (hp : b.primed = false) : b.cursor = 0 ∧ b.filled = 0 ∧ b.located = none := by
  have hlen : b.window.length = 0 := by
    have h := hs.length_eq hc
    simp only [hp, Bool.false_eq_true, if_false] at h
    exact h
  have hf := hs.filled_le hc
  have hcur := hs.cursor_le hc
  refine ⟨by omega, by omega, ?_⟩
  cases hl : b.located with
  | none => rfl
  | some pos =>
    have := (hs.located hc pos hl).2
    have := b.delimiter.length_pos
    omega

theorem Sound.found {b : Buffer σ} (hs : b.Sound) : b.scanner.found = b.located.isSome := by
  cases hc : b.closed
  · cases hp : b.primed
    · obtain ⟨-, -, hl⟩ := hs.of_unprimed hc hp
      simp [Scanner.found, scanner, hc, hp, hl]
    · cases hl : b.located with
      | none =>
        cases he : b.exhausted <;> simp [Scanner.found, scanner, hc, hp, hl, he]
      | some pos => simp [Scanner.found, scanner, hc, hp, hl]
  · cases hl : b.located <;> simp [Scanner.found, scanner, hc, hl]

theorem Sound.close {b : Buffer σ} (hs : b.Sound) : b.close.Sound where
  released := by simp [Buffer.close]
  cursor_le := by simp [Buffer.close]
  filled_le := by simp [Buffer.close]
  length_eq := by simp [Buffer.close]
  located := by simp [Buffer.close]
  unprimed := hs.unprimed

theorem scanner_close {b : Buffer σ} (hs : b.Sound) : b.close.scanner = b.scanner.close := by
  refine scanner_eq rfl rfl (by simp [scanner, Buffer.close, Scanner.close]) ?_
  show Phase.closed b.located.isSome = Phase.closed b.scanner.found
  rw [hs.found]

/-! ## Serving from the window

The scanner's window ends in the buffer at the delimiter once it is located, and else at the
fill mark: at `b.located.getD b.filled`. -/

section Serve

variable {b : Buffer σ}

theorem Sound.getD_le (hs : b.Sound) (hc : b.closed = false) :
    b.located.getD b.filled ≤ b.filled := by
  cases hl : b.located with
  | none => simp
  | some pos =>
    have := (hs.located hc pos hl).2
    simp only [Option.getD_some]
    omega

theorem Sound.length_window (hs : b.Sound) (hc : b.closed = false) :
    b.scanner.window.length = b.located.getD b.filled - b.cursor := by
  have := hs.getD_le hc
  have := hs.filled_le hc
  rw [scanner_window_of_open hc, List.length_take, List.length_drop]
  omega

/-- Moving the cursor within the window keeps the invariant. -/
theorem Sound.advance (hs : b.Sound) (hc : b.closed = false) {k : Nat}
    (hk : b.cursor + k ≤ b.located.getD b.filled) : { b with cursor := b.cursor + k }.Sound where
  released h := absurd h (by simp [hc])
  cursor_le _ := by
    have := hs.getD_le hc
    simp only
    omega
  filled_le _ := hs.filled_le hc
  length_eq _ := hs.length_eq hc
  located _ pos hl := by
    have hl' : b.located = some pos := hl
    have := hs.located hc pos hl'
    simp only [hl', Option.getD_some] at hk
    simp only
    omega
  unprimed := hs.unprimed

/-- Moving the cursor drops the bytes passed from the scanner's window. -/
theorem scanner_advance (hc : b.closed = false) (k : Nat) :
    { b with cursor := b.cursor + k }.scanner =
      { b.scanner with window := b.scanner.window.drop k } := by
  refine scanner_eq rfl rfl ?_ (by simp [scanner, hc])
  simp only [scanner, hc, Bool.false_eq_true, if_false]
  rw [List.drop_take, List.drop_drop, Nat.sub_sub]

/-- A serve closes the buffer exactly when it closes the scanner: when it empties the window
after the delimiter or the end of the data was seen. -/
theorem serve_closes (hs : b.Sound) (hc : b.closed = false) (hp : b.primed = true) {k : Nat}
    (hk : b.cursor + k ≤ b.located.getD b.filled) :
    (b.located == some (b.cursor + k) ||
        b.exhausted && b.located.isNone && b.cursor + k == b.filled) =
      ((b.scanner.window.drop k).isEmpty &&
        (b.scanner.phase == .located || b.scanner.phase == .drained)) := by
  have hlen := hs.length_window hc
  cases hl : b.located with
  | some pos =>
    rw [scanner_phase_located hc hp hl]
    simp only [hl, Option.getD_some] at hk hlen
    rw [Bool.eq_iff_iff]
    simp [List.isEmpty_iff, hlen]
    omega
  | none =>
    simp only [hl, Option.getD_none] at hk hlen
    cases he : b.exhausted
    · rw [scanner_phase_scanning hc hp hl he]
      simp
    · rw [scanner_phase_drained hc hp hl he, Bool.eq_iff_iff]
      simp [List.isEmpty_iff, hlen]
      omega

/-- Within the window a serve stays in range: it delivers the first bytes of the scanner's
window and moves the cursor past them. -/
theorem serve_eq (hs : b.Sound) (hc : b.closed = false) {n limit : Nat} (hlo : b.cursor ≤ limit)
    (hhi : limit ≤ b.located.getD b.filled) :
    b.serve n limit = some (b.scanner.window.take (min n (limit - b.cursor)),
      if b.located == some (b.cursor + min n (limit - b.cursor)) ||
          b.exhausted && b.located.isNone && b.cursor + min n (limit - b.cursor) == b.filled
      then { b with cursor := b.cursor + min n (limit - b.cursor) }.close
      else { b with cursor := b.cursor + min n (limit - b.cursor) }) := by
  have hfill := hs.filled_le hc
  have hlim := hs.getD_le hc
  have hout : slice? b.window b.cursor (b.cursor + min n (limit - b.cursor)) =
      some (b.scanner.window.take (min n (limit - b.cursor))) := by
    rw [slice?_of_le (by omega) (by omega), scanner_window_of_open hc, List.take_take]
    congr 2
    omega
  simp only [serve, sub?_of_le hlo, Option.bind_eq_bind, Option.bind_some, Option.pure_def, hout]

/-- A serve within the window answers what the scanner answers. -/
theorem serve_refines (hs : b.Sound) (hc : b.closed = false) (hp : b.primed = true)
    (n : Nat) {limit : Nat} (hlo : b.cursor ≤ limit) (hhi : limit ≤ b.located.getD b.filled) :
    ∃ bs b', b.serve n limit = some (bs, b') ∧ b'.Sound ∧ b'.delimiter = b.delimiter ∧
      (.bytes bs, b'.scanner) = b.scanner.serve n (limit - b.cursor) := by
  have hk : b.cursor + min n (limit - b.cursor) ≤ b.located.getD b.filled := by omega
  have hadv := hs.advance hc hk
  refine ⟨_, _, serve_eq hs hc hlo hhi, ?_, ?_, ?_⟩
  · split
    · exact hadv.close
    · exact hadv
  · split <;> rfl
  · simp only [Scanner.serve, serve_closes hs hc hp hk]
    split
    · rw [scanner_close hadv, scanner_advance hc]
    · rw [scanner_advance hc]

/-! ## One round of the read loop -/

/-- Once the delimiter is located or the data ended, a round serves the scanner's window to its
end, and closes the buffer once the window is empty, as the scanner delivers. -/
theorem round_to_end (hs : b.Sound) (hc : b.closed = false) (hp : b.primed = true)
    (hend : b.located.isSome ∨ b.exhausted = true) (n : Nat) :
    ∃ bs b', b.round n = some (.answer bs b') ∧ b'.Sound ∧ b'.delimiter = b.delimiter ∧
      (.bytes bs, b'.scanner) = b.scanner.deliver n := by
  have hlen := hs.length_window hc
  -- both ends are served alike: up to where the scanner's window ends, closing once it is empty
  have hround : b.round n = if b.cursor < b.located.getD b.filled
      then (b.serve n (b.located.getD b.filled)).map fun r => .answer r.1 r.2
      else some (.answer [] b.close) := by
    cases hl : b.located with
    | some pos => simp [round, hl]
    | none =>
      have he : b.exhausted = true := by simpa [hl] using hend
      simp [round, hl, he]
  have hdeliver : b.scanner.deliver n = if b.scanner.window.isEmpty
      then (.bytes [], b.scanner.close) else b.scanner.serve n b.scanner.window.length := by
    cases hl : b.located with
    | some pos => rw [Scanner.deliver, scanner_phase_located hc hp hl]
    | none =>
      have he : b.exhausted = true := by simpa [hl] using hend
      rw [Scanner.deliver, scanner_phase_drained hc hp hl he]
  rw [hround, hdeliver]
  by_cases hlt : b.cursor < b.located.getD b.filled
  · obtain ⟨bs, b', hserve, hs', hd, hsc⟩ := serve_refines hs hc hp n (Nat.le_of_lt hlt) (Nat.le_refl _)
    have hne : b.scanner.window.isEmpty = false := by
      rw [List.isEmpty_eq_false_iff, ← List.length_pos_iff]
      omega
    refine ⟨bs, b', by rw [if_pos hlt, hserve]; rfl, hs', hd, ?_⟩
    rw [hne, hsc, hlen]
    rfl
  · have hemp : b.scanner.window.isEmpty = true := by
      rw [List.isEmpty_iff, ← List.length_eq_zero_iff]
      omega
    refine ⟨[], b.close, by rw [if_neg hlt], hs.close, rfl, ?_⟩
    rw [hemp, scanner_close hs]
    rfl

/-- A buffer that located the delimiter, met the end of the data or holds more than `|d|` bytes
past the cursor answers in one round, as the scanner answers from its window. -/
theorem round_answers (hs : b.Sound) (hc : b.closed = false) (hp : b.primed = true)
    (hready : b.located.isSome ∨ b.exhausted = true ∨ b.delimiter.length < b.filled - b.cursor)
    (n : Nat) :
    ∃ bs b', b.round n = some (.answer bs b') ∧ b'.Sound ∧ b'.delimiter = b.delimiter ∧
      (.bytes bs, b'.scanner) = b.scanner.deliver n := by
  by_cases hend : b.located.isSome ∨ b.exhausted = true
  · exact round_to_end hs hc hp hend n
  -- still scanning: all but the last `|d|` bytes of the window are served
  have hl : b.located = none := by simpa using (not_or.1 hend).1
  have he : b.exhausted = false := by simpa using (not_or.1 hend).2
  have hlong : b.delimiter.length < b.filled - b.cursor := by simpa [hl, he] using hready
  have hlen : b.scanner.window.length = b.filled - b.cursor := by
    simpa [hl] using hs.length_window hc
  obtain ⟨bs, b', hserve, hs', hd, hsc⟩ :=
    serve_refines hs hc hp n (show b.cursor ≤ b.filled - b.delimiter.length by omega)
      (by simp [hl])
  have hround : b.round n = some (.answer bs b') := by
    simp [round, hl, he, hserve, show b.cursor < b.filled - b.delimiter.length by omega]
  refine ⟨bs, b', hround, hs', hd, ?_⟩
  rw [Scanner.deliver, scanner_phase_scanning hc hp hl he, hsc, hlen, scanner_delimiter,
    Nat.sub_right_comm]

/-- With no delimiter located, the data not ended and at most `|d|` bytes past the cursor, a
round tops the buffer up. -/
theorem round_topUp (hl : b.located = none) (he : b.exhausted = false)
    (hshort : b.filled - b.cursor ≤ b.delimiter.length) (n : Nat) : b.round n = some .topUp := by
  simp only [round, hl, he, Bool.false_eq_true, if_false]
  rw [if_neg (by omega)]

end Serve

/-! ## Topping the buffer up -/

section Refill

variable {b : Buffer σ}

/-- Before the delimiter is located, the scanner's window runs from the cursor to the fill mark. -/
theorem scanner_window_of_none (hc : b.closed = false) (hl : b.located = none) :
    b.scanner.window = (b.window.drop b.cursor).take (b.filled - b.cursor) := by
  simp [scanner_window_of_open hc, hl]

/-- Compacting moves the scanner's window to the front of the buffer. -/
theorem compact_eq (hs : b.Sound) (hc : b.closed = false) (hl : b.located = none) :
    b.compact = some { b with
      window := overwrite b.window 0 b.scanner.window, filled := b.filled - b.cursor, cursor := 0 } := by
  have hcur := hs.cursor_le hc
  have hfill := hs.filled_le hc
  rw [scanner_window_of_none hc hl]
  unfold compact
  by_cases h0 : 0 < b.cursor
  · rw [if_pos h0, slice?_of_le hcur hfill, sub?_of_le hcur]
    rfl
  · -- the cursor is at the front already, and so is the window
    rw [if_neg h0]
    obtain ⟨src, d, w, cur, f, loc, pr, ex, cl⟩ := b
    simp only at hfill h0 ⊢
    obtain rfl : cur = 0 := by omega
    simp [overwrite, Nat.min_eq_left hfill]

theorem compact_front (h0 : b.cursor = 0) : b.compact = some b := by
  simp [compact, h0]

theorem scanner_front (hc : b.closed = false) (hp : b.primed = true) (hl : b.located = none)
    (h0 : b.cursor = 0) :
    b.scanner = { delimiter := b.delimiter, source := b.source, window := b.window.take b.filled,
                  phase := if b.exhausted then .drained else .scanning } := by
  refine scanner_eq rfl rfl (by simp [scanner, hc, hl, h0]) ?_
  cases he : b.exhausted <;> simp [scanner, hc, hp, hl, he]

/-- A buffer with its bytes at the front keeps the invariant when it has its full size and a
located delimiter ends at its fill mark. -/
theorem Sound.of_front (hc : b.closed = false) (hp : b.primed = true) (h0 : b.cursor = 0)
    (hlen : b.window.length = 2 * b.delimiter.length) (hle : b.filled ≤ b.window.length)
    (hloc : ∀ pos, b.located = some pos → pos + b.delimiter.length = b.filled) : b.Sound where
  released h := absurd h (by simp [hc])
  cursor_le _ := by omega
  filled_le _ := hle
  length_eq _ := by simp [hp, hlen]
  located _ pos hl := ⟨by omega, hloc pos hl⟩
  unprimed h := absurd h (by simp [hp])

/-- Bytes written at the fill mark of a buffer with its bytes at the front join the scanner's
window. -/
theorem scanner_write_front {D : List UInt8} (hc : b.closed = false) (hp : b.primed = true)
    (hl : b.located = none) (h0 : b.cursor = 0) (hle : b.filled ≤ b.window.length)
    (rest : Pushback σ) (ex : Bool) :
    { b with
      source := rest, window := overwrite b.window b.filled D, filled := b.filled + D.length,
      exhausted := ex }.scanner =
      { delimiter := b.delimiter, source := rest, window := b.window.take b.filled ++ D,
        phase := if ex then .drained else .scanning } := by
  rw [scanner_front (b := { b with
    source := rest, window := overwrite b.window b.filled D, filled := b.filled + D.length,
    exhausted := ex }) hc hp hl h0]
  simp only [take_overwrite hle]

/-- Compacting a buffer that is still searching stays in range and puts its bytes at the front,
leaving the scanner it lays out as it was. -/
theorem compact_refines (hs : b.Sound) (hc : b.closed = false) (hp : b.primed = true)
    (hl : b.located = none) :
    ∃ b₁, b.compact = some b₁ ∧ b₁.Sound ∧ b₁.scanner = b.scanner ∧ b₁.closed = false ∧
      b₁.primed = true ∧ b₁.located = none ∧ b₁.exhausted = b.exhausted ∧ b₁.cursor = 0 ∧
      b₁.delimiter = b.delimiter := by
  have hcur := hs.cursor_le hc
  have hfill := hs.filled_le hc
  have hlen : b.window.length = 2 * b.delimiter.length := by simpa [hp] using hs.length_eq hc
  have hW : b.scanner.window.length = b.filled - b.cursor := by
    simpa [hl] using hs.length_window hc
  refine ⟨_, compact_eq hs hc hl, ?_, ?_, hc, hp, hl, rfl, rfl, rfl⟩
  · exact Sound.of_front hc hp rfl (by simp only; rw [length_overwrite (by omega), hlen])
      (by simp only; rw [length_overwrite (by omega)]; omega) (by simp [hl])
  · -- the bytes written at the front are the scanner's window
    refine scanner_eq rfl rfl ?_ (by simp [scanner, hc, hl])
    generalize b.scanner.window = W at hW ⊢
    simp only [scanner, hc, hl, Bool.false_eq_true, if_false, Option.getD_none, List.drop_zero,
      Nat.sub_zero]
    have h := @take_overwrite b.window W 0 (Nat.zero_le _)
    rwa [Nat.zero_add, hW, List.take_zero, List.nil_append] at h

/-- Searching reads the bytes up to the fill mark; at an occurrence the bytes read past it go back
to the source. -/
theorem search_eq (hle : b.filled ≤ b.window.length) :
    b.search = some (match b.delimiter.find (b.window.take b.filled) with
      | none => b
      | some pos => { b with
          source := b.source.unread ((b.window.take b.filled).drop (pos + b.delimiter.length))
          filled := pos + b.delimiter.length, located := some pos }) := by
  have hdata : slice? b.window 0 b.filled = some (b.window.take b.filled) := by
    simp [slice?_of_le (Nat.zero_le _) hle]
  unfold search
  rw [hdata]
  simp only [Option.bind_eq_bind, Option.bind_some]
  cases hf : b.delimiter.find (b.window.take b.filled) with
  | none => rfl
  | some pos =>
    have hstop := Delimiter.find_add_length_le hf
    rw [List.length_take, Nat.min_eq_left hle] at hstop
    simp only [slice?_of_le hstop hle, List.drop_take, Option.bind_some]
    rfl

/-- Writing at the fill mark of a buffer with its bytes at the front keeps the invariant. -/
theorem Sound.write_front {D : List UInt8} (hc : b.closed = false) (hp : b.primed = true)
    (hl : b.located = none) (h0 : b.cursor = 0) (hlen : b.window.length = 2 * b.delimiter.length)
    (hroom : b.filled + D.length ≤ b.window.length) (rest : Pushback σ) (ex : Bool) :
    Sound { b with
      source := rest, window := overwrite b.window b.filled D, filled := b.filled + D.length,
      exhausted := ex } :=
  Sound.of_front hc hp h0 (by simp only; rw [length_overwrite hroom, hlen])
    (by simp only; rw [length_overwrite hroom]; omega) (by simp [hl])

/-- Searching after a write at the fill mark of a buffer with its bytes at the front: without an
occurrence in the bytes up to the new fill mark, the buffer stays as it is. -/
theorem search_write_front_none {D : List UInt8} (hroom : b.filled + D.length ≤ b.window.length)
    (rest : Pushback σ) (ex : Bool)
    (hf : b.delimiter.find (b.window.take b.filled ++ D) = none) :
    { b with
      source := rest, window := overwrite b.window b.filled D, filled := b.filled + D.length,
      exhausted := ex }.search = some { b with
      source := rest, window := overwrite b.window b.filled D, filled := b.filled + D.length,
      exhausted := ex } := by
  rw [search_eq (by simp only; rw [length_overwrite hroom]; omega)]
  simp only [take_overwrite (show b.filled ≤ b.window.length by omega), hf]

/-- Searching after a write at the fill mark of a buffer with its bytes at the front: at an
occurrence the fill mark moves to its end and the bytes after it go back to the source, and the
buffer lays out the bytes before it, located. -/
theorem search_write_front_some {D : List UInt8} {pos : Nat} (hc : b.closed = false)
    (hp : b.primed = true) (h0 : b.cursor = 0) (hlen : b.window.length = 2 * b.delimiter.length)
    (hroom : b.filled + D.length ≤ b.window.length) (rest : Pushback σ) (ex : Bool)
    (hf : b.delimiter.find (b.window.take b.filled ++ D) = some pos) :
    ∃ b', { b with
        source := rest, window := overwrite b.window b.filled D, filled := b.filled + D.length,
        exhausted := ex }.search = some b' ∧ b'.Sound ∧ b'.closed = false ∧ b'.primed = true ∧
      b'.delimiter = b.delimiter ∧ b'.located = some pos ∧
      b'.scanner =
        { delimiter := b.delimiter,
          source := rest.unread ((b.window.take b.filled ++ D).drop (pos + b.delimiter.length)),
          window := (b.window.take b.filled ++ D).take pos, phase := .located } := by
  have hX : (overwrite b.window b.filled D).take (b.filled + D.length) =
      b.window.take b.filled ++ D := take_overwrite (by omega)
  have hlen₂ : (overwrite b.window b.filled D).length = b.window.length := length_overwrite hroom
  have hstop := Delimiter.find_add_length_le hf
  simp only [List.length_append, List.length_take, Nat.min_eq_left (show b.filled ≤
    b.window.length by omega)] at hstop
  rw [search_eq (by simp only; omega)]
  simp only [hX, hf]
  refine ⟨_, rfl, ?_, hc, hp, rfl, rfl, ?_⟩
  · exact Sound.of_front hc hp h0 (by simp only; omega) (by simp only; omega) (by simp)
  · refine scanner_eq rfl rfl ?_ (by simp [scanner, hc, hp])
    simp only [scanner, hc, h0, Bool.false_eq_true, if_false, Option.getD_some, List.drop_zero,
      Nat.sub_zero]
    rw [← hX, List.take_take, Nat.min_eq_left (by omega)]

variable [ByteReader σ]

/-- Filling reads what a loop of requests for the free room reads, and writes it from the fill
mark on; the bytes read stay in the buffer also when a read fails. -/
theorem fill_gather (hcap : ByteReader.Capped (Pushback σ)) (b : Buffer σ) (acc : List UInt8)
    {g : Gathered (Pushback σ)} (hle : b.filled ≤ b.window.length)
    (hg : ByteReader.gatherFrom b.source (b.window.length - b.filled) acc = g) :
    ∃ D, g.data = acc.reverse ++ D ∧ b.filled + D.length ≤ b.window.length ∧
      (g.ending = .filled → b.filled + D.length = b.window.length) ∧
      b.fill = some (g.ending != .failed, { b with
        source := g.rest, window := overwrite b.window b.filled D, filled := b.filled + D.length,
        exhausted := b.exhausted || g.ending == .ended }) := by
  -- the induction follows the loop: each read shrinks the free room
  generalize hm : b.window.length - b.filled = m at hg
  induction m using Nat.strongRecOn generalizing b acc with
  | ind m ih =>
    rw [ByteReader.gatherFrom.eq_def] at hg
    rw [Buffer.fill.eq_def]
    by_cases hlt : b.filled < b.window.length
    · rw [if_pos hlt]
      rw [if_neg (by omega)] at hg
      rcases hread : ByteReader.read b.source m with ⟨⟨_ | ⟨x, xs⟩⟩ | _, src⟩
      · -- the data ended
        rw [hread] at hg
        subst hg
        refine ⟨[], by simp, by omega, by simp, ?_⟩
        simp [hm, hread]
      · -- a read brought bytes: write them and go on
        rw [hread] at hg
        have hcap' : xs.length + 1 ≤ m := hcap _ _ _ _ hread
        have hlen : (overwrite b.window b.filled (x :: xs)).length = b.window.length :=
          length_overwrite (by simp; omega)
        obtain ⟨D, hD, hle', hfull, hfill⟩ := ih (m - (xs.length + 1)) (by omega)
          { b with source := src, window := overwrite b.window b.filled (x :: xs),
                   filled := b.filled + (x :: xs).length }
          ((x :: xs).reverseAux acc) (by simp only [hlen]; simp; omega)
          (by simp only [hlen]; simp; omega) hg
        simp only [List.length_cons] at hle' hfull
        rw [hlen] at hle' hfull
        refine ⟨(x :: xs) ++ D, ?_, ?_, ?_, ?_⟩
        · rw [hD, List.reverseAux_eq, List.reverse_append, List.reverse_reverse, List.append_assoc]
        · simp
          omega
        · intro h
          have := hfull h
          simp
          omega
        · rw [hm, hread]
          simp only
          rw [if_pos (by omega), hfill]
          dsimp only
          rw [overwrite_overwrite (by simp; omega)]
          simp only [List.length_append, Nat.add_assoc]
      · -- a read failed
        rw [hread] at hg
        subst hg
        refine ⟨[], by simp, by omega, by simp, ?_⟩
        simp [hm, hread]
    · rw [if_neg hlt]
      rw [if_pos (by omega)] at hg
      subst hg
      refine ⟨[], by simp, by omega, fun _ => by simp; omega, ?_⟩
      simp only [overwrite_nil, List.length_nil, Nat.add_zero,
        show (Ending.filled == Ending.ended) = false from rfl, Bool.or_false]
      rfl

/-- Topping up a buffer with its bytes at the front that is still searching stays in range and
moves the buffer as the scanner's top-up moves the scanner, also when a read fails; one that does
not fail leaves a buffer that answers in one round. -/
theorem refill_front (hcap : ByteReader.Capped (Pushback σ)) (hs : b.Sound)
    (hc : b.closed = false) (hp : b.primed = true) (hl : b.located = none)
    (he : b.exhausted = false) (h0 : b.cursor = 0) :
    ∃ ok b', b.refill = some (ok, b') ∧ b'.Sound ∧ b'.closed = false ∧ b'.primed = true ∧
      b'.delimiter = b.delimiter ∧ (ok, b'.scanner) = b.scanner.refill ∧
      (ok = true → b'.located.isSome ∨ b'.exhausted = true ∨
        b'.delimiter.length < b'.filled - b'.cursor) := by
  have hfill := hs.filled_le hc
  have hlen : b.window.length = 2 * b.delimiter.length := by simpa [hp] using hs.length_eq hc
  have hwin : b.scanner.window = b.window.take b.filled := by
    simp [scanner_window_of_none hc hl, h0]
  -- the buffer's fill and the scanner's top-up read the same bytes
  generalize hg : ByteReader.readUpTo b.source (2 * b.delimiter.length - b.filled) = g
  obtain ⟨D, hD, hroom, hfull, hfill'⟩ := fill_gather (g := g) hcap b [] hfill
    (by rw [hlen]; exact hg)
  obtain ⟨data, e, rest⟩ := g
  simp only [List.reverse_nil, List.nil_append] at hD hfull hfill'
  subst hD
  have hg' : ByteReader.readUpTo b.scanner.source
      (2 * b.scanner.delimiter.length - b.scanner.window.length) = ⟨data, e, rest⟩ := by
    rw [hwin, List.length_take, Nat.min_eq_left hfill]
    exact hg
  have hs₂ := Sound.write_front hc hp hl h0 hlen hroom rest (b.exhausted || e == .ended)
  have hsc₂ := scanner_write_front (D := data) hc hp hl h0 hfill rest (b.exhausted || e == .ended)
  rw [refill, compact_front h0]
  simp only [Option.bind_eq_bind, Option.bind_some, hfill']
  by_cases hfail : e = .failed
  · -- the top-up failed: the bytes read stay, unsearched
    subst hfail
    refine ⟨false, _, rfl, hs₂, hc, hp, rfl, ?_, by simp⟩
    rw [hsc₂, Scanner.refill, hg']
    simp [he, hwin]
  -- the top-up met no failure: the buffer up to the fill mark is searched
  rw [refill_of_gathered hg' hfail]
  have hok : (e != .failed) = true := by simpa using hfail
  simp only [hok, scanner_delimiter, hwin]
  cases hf : b.delimiter.find (b.window.take b.filled ++ data) with
  | none =>
    -- no occurrence: ready once the data ended or the buffer is full
    rw [search_write_front_none hroom rest _ hf]
    refine ⟨true, _, rfl, hs₂, hc, hp, rfl, ?_, fun _ => ?_⟩
    · rw [hsc₂, he, Bool.false_or]
      simp only [beq_iff_eq]
    · cases e with
      | failed => exact absurd rfl hfail
      | filled =>
        have := hfull rfl
        have := b.delimiter.length_pos
        simp only
        omega
      | ended => simp
  | some pos =>
    obtain ⟨b₃, hsearch, hs₃, hc₃, hp₃, hd₃, hl₃, hsc₃⟩ :=
      search_write_front_some hc hp h0 hlen hroom rest (b.exhausted || e == .ended) hf
    rw [hsearch]
    exact ⟨true, b₃, rfl, hs₃, hc₃, hp₃, hd₃, by rw [hsc₃], fun _ => Or.inl (by simp [hl₃])⟩

/-- Topping up a buffer that is still searching stays in range and moves the buffer as the
scanner's top-up moves the scanner, also when a read fails; one that does not fail leaves a
buffer that answers in one round. -/
theorem refill_refines (hcap : ByteReader.Capped (Pushback σ)) (hs : b.Sound)
    (hc : b.closed = false) (hp : b.primed = true) (hl : b.located = none)
    (he : b.exhausted = false) :
    ∃ ok b', b.refill = some (ok, b') ∧ b'.Sound ∧ b'.closed = false ∧ b'.primed = true ∧
      b'.delimiter = b.delimiter ∧ (ok, b'.scanner) = b.scanner.refill ∧
      (ok = true → b'.located.isSome ∨ b'.exhausted = true ∨
        b'.delimiter.length < b'.filled - b'.cursor) := by
  obtain ⟨b₁, hcomp, hs₁, hsc₁, hc₁, hp₁, hl₁, he₁, h0₁, hd₁⟩ := compact_refines hs hc hp hl
  obtain ⟨ok, b', hr, hs', hc', hp', hd', hsc', hready⟩ :=
    refill_front hcap hs₁ hc₁ hp₁ hl₁ (he₁.trans he) h0₁
  refine ⟨ok, b', ?_, hs', hc', hp', hd'.trans hd₁, by rw [hsc', hsc₁], hready⟩
  rw [← hr]
  simp only [refill, hcomp, compact_front h0₁, Option.bind_eq_bind, Option.bind_some]

end Refill

/-! ## Answering a request -/

section Read

variable [ByteReader σ] {b : Buffer σ}

/-- A buffer ready to answer answers in the first round of its loop. -/
theorem loop_of_ready (hs : b.Sound) (hc : b.closed = false) (hp : b.primed = true)
    (hready : b.located.isSome ∨ b.exhausted = true ∨ b.delimiter.length < b.filled - b.cursor)
    (n rounds : Nat) :
    ∃ bs b', loop n (rounds + 1) b = some (.bytes bs, b') ∧ b'.Sound ∧
      b'.delimiter = b.delimiter ∧ (.bytes bs, b'.scanner) = b.scanner.deliver n := by
  obtain ⟨bs, b', hround, hs', hd, hsc⟩ := round_answers hs hc hp hready n
  exact ⟨bs, b', by simp [loop, hround], hs', hd, hsc⟩

/-- A buffer with at most `|d|` bytes past the cursor, the delimiter not located and the data not
ended tops up and then answers in the second round, as the scanner tops up and then answers. -/
theorem loop_of_short (hcap : ByteReader.Capped (Pushback σ)) (hs : b.Sound)
    (hc : b.closed = false) (hp : b.primed = true) (hl : b.located = none)
    (he : b.exhausted = false) (hshort : b.filled - b.cursor ≤ b.delimiter.length) (n : Nat) :
    ∃ r b', loop n 2 b = some (r, b') ∧ b'.Sound ∧ b'.delimiter = b.delimiter ∧
      (r, b'.scanner) = b.scanner.refillThenDeliver n := by
  obtain ⟨ok, b₁, hr, hs₁, hc₁, hp₁, hd₁, hsc₁, hready⟩ := refill_refines hcap hs hc hp hl he
  cases ok
  · refine ⟨.failed, b₁, by simp [loop, round_topUp hl he hshort, hr], hs₁, hd₁, ?_⟩
    rw [refillThenDeliver, ← hsc₁]
  · obtain ⟨bs, b₂, hloop, hs₂, hd₂, hsc₂⟩ := loop_of_ready hs₁ hc₁ hp₁ (hready rfl) n 0
    refine ⟨.bytes bs, b₂, ?_, hs₂, hd₂.trans hd₁, ?_⟩
    · rw [loop.eq_2, round_topUp hl he hshort]
      simp only [Option.bind_eq_bind, Option.bind_some, hr]
      exact hloop
    · rw [refillThenDeliver, ← hsc₁, hsc₂]

/-- Every request to a buffer that keeps the invariant stays in range, keeps the invariant and
moves the buffer as the scanner it lays out moves. -/
theorem read_refines (hcap : ByteReader.Capped (Pushback σ)) (hs : b.Sound) (n : Nat) :
    ∃ r b', b.read n = some (r, b') ∧ b'.Sound ∧ b'.delimiter = b.delimiter ∧
      (r, b'.scanner) = b.scanner.read n := by
  by_cases hn : n = 0
  · subst hn
    exact ⟨.bytes [], b, by simp [read], hs, rfl, by simp [Scanner.read]⟩
  cases hc : b.closed with
  | true =>
    refine ⟨.bytes [], b, by simp [read, hc], hs, rfl, ?_⟩
    simp [Scanner.read, hn, scanner, hc]
  | false =>
  have hW := hs.length_window hc
  cases hp : b.primed with
  | false =>
    -- the first request allocates the buffer and tops it up
    obtain ⟨h0, hf0, hl⟩ := hs.of_unprimed hc hp
    have he := hs.unprimed hp
    have hs₀ : Sound { b with primed := true, window := List.replicate (2 * b.delimiter.length) 0 } :=
      Sound.of_front hc rfl h0 (by simp) (by simp [hf0]) (by simp [hl])
    obtain ⟨ok, b₁, hr, hs₁, hc₁, hp₁, hd₁, hsc₁, hready⟩ := refill_refines hcap hs₀ hc rfl hl he
    -- allocated, the buffer lays out the same scanner, now scanning
    have hsc₀ : Scanner.refill (scanner { b with
        primed := true, window := List.replicate (2 * b.delimiter.length) 0 }) = b.scanner.refill := by
      rw [← refill_phase b.scanner .scanning]
      congr 1
      exact scanner_eq rfl rfl (by simp [scanner, hc, hf0, h0, hl]) (by simp [scanner, hc, hl, he])
    have hread : b.scanner.read n = b.scanner.refillThenDeliver n := by
      simp [Scanner.read, hn, scanner, hc, hp]
    have hprime : b.read n = if ok then loop n 2 b₁ else some (.failed, b₁) := by
      unfold read
      rw [if_neg (by simp [hn, hc])]
      simp only [hp, Bool.false_eq_true, if_false, hr, Option.bind_eq_bind, Option.bind_some]
      rfl
    rw [hprime, hread, refillThenDeliver, ← hsc₀, ← hsc₁]
    cases ok
    · exact ⟨.failed, b₁, rfl, hs₁, hd₁, rfl⟩
    · obtain ⟨bs, b₂, hloop, hs₂, hd₂, hsc₂⟩ := loop_of_ready hs₁ hc₁ hp₁ (hready rfl) n 1
      exact ⟨.bytes bs, b₂, hloop, hs₂, hd₂.trans hd₁, hsc₂⟩
  | true =>
    have hloop : b.read n = loop n 2 b := by simp [read, hn, hc, hp]
    rw [hloop]
    cases hl : b.located with
    | some pos =>
      obtain ⟨bs, b', h, hs', hd, hsc⟩ := loop_of_ready hs hc hp (Or.inl (by simp [hl])) n 1
      refine ⟨_, b', h, hs', hd, ?_⟩
      rw [hsc, Scanner.read, if_neg hn, scanner_phase_located hc hp hl]
    | none =>
      cases he : b.exhausted with
      | true =>
        obtain ⟨bs, b', h, hs', hd, hsc⟩ := loop_of_ready hs hc hp (Or.inr (Or.inl he)) n 1
        refine ⟨_, b', h, hs', hd, ?_⟩
        rw [hsc, Scanner.read, if_neg hn, scanner_phase_drained hc hp hl he]
      | false =>
        simp only [hl, Option.getD_none] at hW
        have hread : b.scanner.read n = if b.delimiter.length < b.filled - b.cursor
            then b.scanner.deliver n else b.scanner.refillThenDeliver n := by
          rw [Scanner.read, if_neg hn, scanner_phase_scanning hc hp hl he, scanner_delimiter, hW]
        rw [hread]
        by_cases hlong : b.delimiter.length < b.filled - b.cursor
        · -- more than `|d|` bytes past the cursor: all but the last `|d|` are served
          obtain ⟨bs, b', h, hs', hd, hsc⟩ := loop_of_ready hs hc hp (Or.inr (Or.inr hlong)) n 1
          exact ⟨_, b', h, hs', hd, by rw [hsc, if_pos hlong]⟩
        · -- too few: the buffer is topped up first
          obtain ⟨r, b', h, hs', hd, hsc⟩ := loop_of_short hcap hs hc hp hl he (by omega) n
          exact ⟨r, b', h, hs', hd, by rw [hsc, if_neg hlong]⟩

/-! ## Every run of requests -/

/-- Over every run of requests, a buffer that keeps the invariant keeps it, never halts, and lays
out the scanner that the same requests reach. -/
theorem run_refines (hcap : ByteReader.Capped (Pushback σ)) (ns : List Nat) (hs : b.Sound) :
    ∃ b', b.run ns = some b' ∧ b'.Sound ∧ b'.delimiter = b.delimiter ∧
      b'.scanner = ns.foldl (fun sc n => (sc.read n).2) b.scanner := by
  -- the induction runs along the requests, with the invariant carried by `read_refines`
  induction ns generalizing b with
  | nil => exact ⟨b, rfl, hs, rfl, rfl⟩
  | cons n ns ih =>
    obtain ⟨r, b₁, hr, hs₁, hd₁, hsc₁⟩ := read_refines hcap hs n
    obtain ⟨b', hrun, hs', hd', hsc'⟩ := ih hs₁
    have hstep : (b.scanner.read n).2 = b₁.scanner := by rw [← hsc₁]
    refine ⟨b', by simp [run, hr, hrun], hs', hd'.trans hd₁, ?_⟩
    rw [hsc', List.foldl_cons, hstep]

/-- The window invariant holds in every state a scanner reaches. From a new scanner over a stream
that keeps the reader contract, every run of requests stays in range, never halts, keeps the
invariant and lays out the scanner that the same requests reach, and so does the request after
it. A byte read is a request for one byte, a drain is requests until one brings nothing, and a
request may fail midway through a top-up. -/
theorem window_invariant_holds (hcap : ByteReader.Capped σ) (p : Pushback σ) (d : Delimiter)
    (ns : List Nat) :
    ∃ b, (withSource p d).run ns = some b ∧ b.Sound ∧ b.delimiter = d ∧
      b.scanner = ns.foldl (fun sc n => (sc.read n).2) (Scanner.withSource p d) ∧
      ∀ n, ∃ r b', b.read n = some (r, b') ∧ b'.Sound ∧ (r, b'.scanner) = b.scanner.read n := by
  have hcap' := Pushback.capped hcap
  obtain ⟨b, hrun, hs, hd, hsc⟩ := run_refines hcap' ns (sound_withSource p d)
  refine ⟨b, hrun, hs, hd, by rw [hsc, scanner_withSource], fun n => ?_⟩
  obtain ⟨r, b', hr, hs', -, hsc'⟩ := read_refines hcap' hs n
  exact ⟨r, b', hr, hs', hsc'⟩

/-- Over a source that delivers `xab` and then fails, a scanner of `xa` keeps the invariant
through a request that fails midway through its first top-up and the requests after it. -/
theorem window_invariant_holds_failing_source :
    let p : Pushback Source := { inner := { data := [120, 97, 98], fails := true } }
    let d : Delimiter := ⟨[120, 97], by simp⟩
    ∃ b, (withSource p d).run [1, 1, 1] = some b ∧ b.Sound ∧ b.delimiter = d ∧
      b.scanner = [1, 1, 1].foldl (fun sc n => (sc.read n).2) (Scanner.withSource p d) ∧
      ∀ n, ∃ r b', b.read n = some (r, b') ∧ b'.Sound ∧ (r, b'.scanner) = b.scanner.read n :=
  window_invariant_holds Source.capped _ _ _

end Read

end Buffer

end Scanner

end MimeMultipart
