import MimeMultipart.Proofs.ScannerStream
import MimeMultipart.Header.Block
/-!
# Header blocks read from a stream

A part's header block is read from the part's stream through three stacked scanners: one of the
empty line that ends the block, one of the line end, and one of the colon in each line. Whatever
the limits, the result is what `Headers.ofBlockBytes` gives on the bytes of the stream: the same
headers and a body that yields the bytes after the block, or the same failure.

The proof follows the reading loop. `readField_of_fits` and `readField_of_long` say what reading a
name or a value against the size limit does; `readLine_answers` says a line read from a stream
answers as `lineResult` on its text; `lines_answers` runs the loop over the lines of the block by
induction on its fuel, and `readBlock_answers` assembles them.
-/

namespace MimeMultipart

namespace HeaderBlock

section Field

variable {τ : Type} [ByteReader τ] {Z : τ → List UInt8 → Prop}

/-- A field within its budget is read whole, and the stream is left at its end. -/
theorem readField_of_fits (hZ : Streams Z) {s : τ} {xs : List UInt8} (h : Z s xs)
    {max : Option Nat} {used : Nat} (hfit : ∀ n, max = some n → xs.length ≤ n - used) :
    ∃ s', readField s max used = (.ok xs, s') ∧ Z s' [] ∧ AnsweredEnd Z s' := by
  cases max with
  | none =>
    obtain ⟨s', hg, hs', hend⟩ := hZ.readToEnd h
    exact ⟨s', by simp [readField, hg, Gathered.bytes?], hs', hend⟩
  | some n =>
    have hlen := hfit n rfl
    obtain ⟨s', hg, hs', hend⟩ := hZ.readUpTo h (n - used + 1)
    have htake : xs.take (n - used + 1) = xs := List.take_of_length_le (by omega)
    have hended : (if n - used + 1 ≤ xs.length then Ending.filled else .ended) = .ended :=
      if_neg (by omega)
    refine ⟨s', ?_, ?_, hend (by omega)⟩
    · simp only [readField, hg, hended, Gathered.bytes?, htake, if_pos hlen]
    · rwa [List.drop_eq_nil_of_le (by omega)] at hs'

theorem readField_of_long (hZ : Streams Z) {s : τ} {xs : List UInt8} (h : Z s xs) {n used : Nat}
    (hlong : n - used < xs.length) :
    ∃ s', readField s (some n) used = (.error (.headerSize n), s') ∧ ∃ V, Z s' V := by
  obtain ⟨s', hg, hs', -⟩ := hZ.readUpTo h (n - used + 1)
  have hlen : (xs.take (n - used + 1)).length = n - used + 1 := List.length_take_of_le (by omega)
  have hfilled : (if n - used + 1 ≤ xs.length then Ending.filled else .ended) = .filled :=
    if_pos (by omega)
  refine ⟨s', ?_, _, hs'⟩
  simp only [readField, hg, hfilled, Gathered.bytes?, hlen, if_neg (Nat.not_succ_le_self _)]

end Field

section Line

variable {τ : Type} {Z : τ → List UInt8 → Prop}

/-- A line read from a stream answers as its text does: the failure for a line too long, or the
header the text holds, if any, with what is left of the line. -/
def LineAnswers (Z : τ → List UInt8 → Prop) :
    Except (Failure × τ) (Option Header × τ) → LineResult → Prop
  | .error (f, _), .tooLong n => f = .headerSize n
  | .ok (none, t), .stop => ∃ V, Z t V
  | .ok (some h, t), .header h' => h = h' ∧ ∃ V, Z t V
  | _, _ => False

theorem LineAnswers.of_tooLong {r : Except (Failure × τ) (Option Header × τ)} {n : Nat}
    (h : LineAnswers Z r (.tooLong n)) : ∃ t, r = .error (.headerSize n, t) := by
  rcases r with ⟨f, t⟩ | ⟨_ | _, t⟩
  · exact ⟨t, by rw [show f = _ from h]⟩
  all_goals exact h.elim

theorem LineAnswers.of_stop {r : Except (Failure × τ) (Option Header × τ)}
    (h : LineAnswers Z r .stop) : ∃ t V, r = .ok (none, t) ∧ Z t V := by
  rcases r with ⟨f, t⟩ | ⟨_ | _, t⟩
  · exact h.elim
  · obtain ⟨V, hV⟩ := h
    exact ⟨t, V, rfl, hV⟩
  · exact h.elim

theorem LineAnswers.of_header {r : Except (Failure × τ) (Option Header × τ)} {hd : Header}
    (h : LineAnswers Z r (.header hd)) : ∃ t V, r = .ok (some hd, t) ∧ Z t V := by
  rcases r with ⟨f, t⟩ | ⟨_ | hd', t⟩
  · exact h.elim
  · exact h.elim
  · obtain ⟨rfl, V, hV⟩ := h
    exact ⟨t, V, rfl, hV⟩

theorem before_colon (L : List UInt8) : colon.before L = L.takeWhile (· != 58) :=
  Delimiter.before_single 58 _ L

theorem after_colon (L : List UInt8) :
    colon.after L = if L.contains 58 then some ((L.dropWhile (· != 58)).drop 1) else none :=
  Delimiter.after_single 58 _ L

theorem takeWhile_colon_of_not_mem {L : List UInt8} (hm : (58 : UInt8) ∉ L) :
    L.takeWhile (· != 58) = L :=
  Delimiter.takeWhile_of_not_contains (by simpa using hm)

/-! What a line gives, by what its text holds: its name is the text before the first colon and
its value the text after it. -/

theorem lineResult_long_name {n : Nat} {L : List UInt8}
    (hn : n < (L.takeWhile (· != 58)).length) : lineResult (some n) L = .tooLong n := by
  have hname : (L.takeWhile (· != 58)).isEmpty = false :=
    List.isEmpty_eq_false_iff.2 (List.ne_nil_of_length_pos (by omega))
  by_cases hm : (58 : UInt8) ∈ L
  · simp only [lineResult, List.contains_iff_mem, hm, hname]
    simp
    omega
  · rw [takeWhile_colon_of_not_mem hm] at hn
    simp [lineResult, hm, hn]

theorem lineResult_empty_name {max : Option Nat} {L : List UInt8} (hm : (58 : UInt8) ∈ L)
    (hempty : L.takeWhile (· != 58) = []) : lineResult max L = .stop := by
  cases max <;> simp [lineResult, hm, hempty]

theorem lineResult_long_value {n : Nat} {L : List UInt8} (hm : (58 : UInt8) ∈ L)
    (hempty : L.takeWhile (· != 58) ≠ []) (hle : (L.takeWhile (· != 58)).length ≤ n)
    (hn : n - (L.takeWhile (· != 58)).length < ((L.dropWhile (· != 58)).drop 1).length) :
    lineResult (some n) L = .tooLong n := by
  have hname : (L.takeWhile (· != 58)).isEmpty = false := List.isEmpty_eq_false_iff.2 hempty
  simp only [lineResult, List.contains_iff_mem, hm, hname]
  simp only [List.length_drop] at hn ⊢
  simp
  omega

theorem lineResult_of_fits {max : Option Nat} {L : List UInt8} (hm : (58 : UInt8) ∈ L)
    (hempty : L.takeWhile (· != 58) ≠ [])
    (hfit : ∀ n, max = some n → (L.takeWhile (· != 58)).length ≤ n)
    (hvfit : ∀ n, max = some n →
      ((L.dropWhile (· != 58)).drop 1).length ≤ n - (L.takeWhile (· != 58)).length) :
    lineResult max L = .header ⟨Latin1.decode (L.takeWhile (· != 58)),
      Latin1.decode ((L.dropWhile (· != 58)).drop 1)⟩ := by
  cases max with
  | none => simp [lineResult, hm, hempty]
  | some n =>
    have hle := hfit n rfl
    have hvle := hvfit n rfl
    simp only [List.length_drop] at hvle
    simp [lineResult, hm, hempty]
    omega

theorem lineResult_no_colon {max : Option Nat} {L : List UInt8} (hm : (58 : UInt8) ∉ L)
    (hfit : ∀ n, max = some n → L.length ≤ n) : lineResult max L = .stop := by
  cases max <;> simp_all [lineResult, takeWhile_colon_of_not_mem hm]

variable [ByteReader τ]

/-- The name of a line is read through a scanner of the colon, the value after it. -/
theorem readLine_answers (hZ : Streams Z) {line : τ} {L : List UInt8} (h : Z line L)
    (max : Option Nat) : LineAnswers Z (readLine line max) (lineResult max L) := by
  have hnames : Scanner.Tracks Z (Scanner.new line colon) (colon.before L) (colon.after L) :=
    Scanner.tracks_withSource ⟨L, h, rfl⟩ colon
  have hZn := Scanner.streams_tracks hZ (colon.after L)
  rw [before_colon] at hnames
  by_cases hlong : ∃ n, max = some n ∧ n < (L.takeWhile (· != 58)).length
  · -- the name alone is over the limit
    obtain ⟨n, rfl, hn⟩ := hlong
    obtain ⟨names, hread, -⟩ := readField_of_long hZn hnames (show n - 0 < _ by omega)
    simp only [readLine, hread, lineResult_long_name hn, LineAnswers]
  · have hfit : ∀ n, max = some n → (L.takeWhile (· != 58)).length ≤ n - 0 := by
      simpa using hlong
    obtain ⟨names, hread, hdone, hend⟩ := readField_of_fits hZn hnames hfit
    have hfound := (Scanner.finished_of_tracks hdone (Scanner.finished_of_answeredEnd hZ hend)).2
    have hbase := Scanner.base_of_tracks hdone
    by_cases hm : (58 : UInt8) ∈ L
    · have hafter : colon.after L = some ((L.dropWhile (· != 58)).drop 1) := by
        simp [after_colon, hm]
      rw [hafter] at hfound
      by_cases hempty : L.takeWhile (· != 58) = []
      · -- a line starting with a colon ends the block
        simp only [readLine, hread, hempty, List.isEmpty_nil, Bool.true_or, if_true,
          lineResult_empty_name hm hempty]
        simpa [LineAnswers] using hbase
      · -- the value is read after the colon, within what the name left of the limit
        obtain ⟨p, hrem, hp⟩ := Scanner.intoRemaining_tracks hZ hdone
        rw [hafter, Option.getD_some] at hp
        have hname : (L.takeWhile (· != 58)).isEmpty = false := List.isEmpty_eq_false_iff.2 hempty
        by_cases hvlong : ∃ n, max = some n ∧
            n - (L.takeWhile (· != 58)).length < ((L.dropWhile (· != 58)).drop 1).length
        · obtain ⟨n, rfl, hn⟩ := hvlong
          obtain ⟨p', hval, -⟩ := readField_of_long (Pushback.streams_over hZ) hp hn
          simp only [readLine, hread, hname, hfound, Bool.false_or, hrem, hval,
            lineResult_long_value hm hempty (by simpa using hfit n rfl) hn]
          rfl
        · have hvfit : ∀ n, max = some n →
              ((L.dropWhile (· != 58)).drop 1).length ≤ n - (L.takeWhile (· != 58)).length := by
            simpa using hvlong
          obtain ⟨p', hval, ⟨ys, hys, -⟩, -⟩ :=
            readField_of_fits (Pushback.streams_over hZ) hp hvfit
          simp only [readLine, hread, hname, hfound, Bool.false_or, hrem, hval,
            lineResult_of_fits hm hempty (fun n hn => by simpa using hfit n hn) hvfit]
          exact ⟨rfl, ys, hys⟩
    · -- without a colon the line is no header
      have hnone : colon.after L = none := by simp [after_colon, hm]
      rw [hnone] at hfound
      have hlen : ∀ n, max = some n → L.length ≤ n := fun n hn => by
        simpa [takeWhile_colon_of_not_mem hm] using hfit n hn
      simp only [readLine, hread, hfound, lineResult_no_colon hm hlen]
      simpa [LineAnswers] using hbase

end Line

/-! ## The lines of a block -/

theorem after_lineEnd_nil : lineEnd.after [] = none := by
  cases h : lineEnd.after [] with
  | none => rfl
  | some R => exact absurd (Delimiter.length_after_lt h) (Nat.not_lt_zero _)

theorem linesOf_nil : linesOf [] = [] := by
  have hbefore : lineEnd.before [] = [] := List.prefix_nil.1 (Delimiter.before_prefix_self _ _)
  simp [linesOf, Delimiter.split_eq lineEnd [], hbefore, after_lineEnd_nil]

theorem linesOf_cons {X : List UInt8} (hX : X ≠ []) :
    linesOf X = lineEnd.before X :: linesOf ((lineEnd.after X).getD []) := by
  cases h : lineEnd.after X with
  | none =>
    have hsplit := Delimiter.split_eq lineEnd X
    rw [h, Delimiter.before_of_after_none h] at hsplit
    rw [Option.getD_none, linesOf_nil, Delimiter.before_of_after_none h]
    simp [linesOf, hsplit, hX]
  | some R =>
    obtain ⟨y, ys, hys⟩ : ∃ y ys, lineEnd.split R = y :: ys :=
      ⟨_, _, Delimiter.split_eq lineEnd R⟩
    have hsplit := Delimiter.split_eq lineEnd X
    rw [h, Option.elim_some, hys] at hsplit
    simp only [linesOf, hsplit, hys, Option.getD_some]
    split <;> simp_all [List.getLast?_cons_cons, List.dropLast_cons_cons]

/-! ## The block -/

section Block

variable {σ : Type} {Z : σ → List UInt8 → Prop}

/-- A header block read from a stream answers as the reference does on the stream's bytes: the
same headers with a body whose stream is the same bytes, or the same failure. -/
def BlockAnswers (Z : σ → List UInt8 → Prop) :
    Except (Failure × σ) (Headers × Pushback σ) → Except Failure (Headers × List UInt8) →
      Prop
  | .ok (hs, body), .ok (hs', B) => hs = hs' ∧ Pushback.Over Z body B
  | .error (f, _), .error f' => f = f'
  | _, _ => False

theorem BlockAnswers.of_error {r : Except (Failure × σ) (Headers × Pushback σ)} {f : Failure}
    (h : BlockAnswers Z r (.error f)) : ∃ t, r = .error (f, t) := by
  rcases r with ⟨f', t⟩ | ⟨hs, body⟩
  · exact ⟨t, by rw [show f' = f from h]⟩
  · exact h.elim

theorem BlockAnswers.of_ok {r : Except (Failure × σ) (Headers × Pushback σ)} {hs : Headers}
    {B : List UInt8} (h : BlockAnswers Z r (.ok (hs, B))) :
    ∃ body, r = .ok (hs, body) ∧ Pushback.Over Z body B := by
  rcases r with ⟨f, t⟩ | ⟨hs', body⟩
  · exact h.elim
  · obtain ⟨rfl, hbody⟩ := h
    exact ⟨body, rfl, hbody⟩

variable [ByteReader σ]

/-- Ending a block hands on, as the body, the stream after the block's terminator. -/
theorem finish_answers (hZ : Streams Z) {O : Option (List UInt8)} {rest : Pushback (Scanner σ)}
    {X : List UInt8} (h : Pushback.Over (fun sc U => Scanner.Tracks Z sc U O) rest X)
    (hs : Headers) : BlockAnswers Z (finish rest hs) (.ok (hs, O.getD [])) := by
  obtain ⟨ys, hys, -⟩ := h
  obtain ⟨p, hp, hover⟩ := Scanner.intoRemaining_tracks hZ hys
  simp only [finish, hp, Except.map]
  exact ⟨rfl, hover⟩

theorem length_rest_lt {X : List UInt8} (hX : X ≠ []) :
    ((lineEnd.after X).getD []).length < X.length := by
  cases h : lineEnd.after X with
  | none => simpa [List.length_pos_iff] using hX
  | some R => exact Delimiter.length_after_lt h

/-- The loop over a block's lines answers as the reference does on the lines of `X`, the block
text still ahead, after the headers `held`, newest first. The induction is on the fuel, which
exceeds the length of `X`, as each line takes at least one byte. -/
theorem lines_answers (hZ : Streams Z) {O : Option (List UInt8)} (limits : Limits) :
    ∀ (fuel : Nat) (rest : Pushback (Scanner σ)) (X : List UInt8) (held : List Header),
      Pushback.Over (fun sc U => Scanner.Tracks Z sc U O) rest X → X.length < fuel →
      BlockAnswers Z (lines limits fuel rest held held.length)
        ((headersOf limits (linesOf X) ⟨held.reverse⟩).map fun hs => (hs, O.getD [])) := by
  intro fuel
  induction fuel with
  | zero => intro _ _ _ _ h; omega
  | succ fuel ih =>
    intro rest X held hX hfuel
    have hZb := Scanner.streams_tracks hZ O
    obtain ⟨rest', hend, hX'⟩ := Pushback.atEnd_over hZb hX
    by_cases hnil : X = []
    · -- the block ends here
      subst hnil
      simp only [lines, hend, List.isEmpty_nil, linesOf_nil, headersOf, Except.map]
      exact finish_answers hZ hX' _
    have hLA := readLine_answers (Scanner.streams_tracks hZb (lineEnd.after X))
      (Scanner.tracks_withSource hX' lineEnd) limits.maxHeaderSize
    have hempty : X.isEmpty = false := List.isEmpty_eq_false_iff.2 hnil
    rw [linesOf_cons hnil]
    cases hres : lineResult limits.maxHeaderSize (lineEnd.before X) with
    | tooLong n =>
      obtain ⟨t, hr⟩ := (hres ▸ hLA).of_tooLong
      simp only [lines, hend, hempty, hr, headersOf, hres, Except.map]
      rfl
    | stop =>
      obtain ⟨t, V, hr, ht⟩ := (hres ▸ hLA).of_stop
      obtain ⟨rest'', hrem, hrest''⟩ := Scanner.intoRemaining_tracks hZb ht
      simp only [lines, hend, hempty, hr, hrem, headersOf, hres]
      exact finish_answers hZ hrest'' _
    | header hd =>
      obtain ⟨t, V, hr, ht⟩ := (hres ▸ hLA).of_header
      obtain ⟨rest'', hrem, hrest''⟩ := Scanner.intoRemaining_tracks hZb ht
      have hnext := ih rest'' _ (hd :: held) hrest''
        (by have := length_rest_lt hnil; omega)
      simp only [lines, hend, hempty, hr, hrem, headersOf, hres]
      cases limits.maxHeaders with
      | none => simpa [Headers.push] using hnext
      | some m =>
        by_cases hm : m ≤ held.length
        · simp [hm, Headers.size, Except.map, BlockAnswers]
        · simpa [hm, Headers.size, Headers.push] using hnext

/-- What reading a block does once its first two bytes came without a failure. -/
theorem readBlock_of_gathered {src : σ} {data : List UInt8} {e : Ending} {rest : Pushback σ}
    (hg : ByteReader.readUpTo ({ inner := src } : Pushback σ) 2 = ⟨data, e, rest⟩)
    (he : e ≠ .failed) (limits : Limits) :
    Headers.readBlock src limits =
      if data = [13, 10] then .ok ({}, rest)
      else
        let blk : Pushback (Scanner σ) :=
          { inner := Scanner.withSource (rest.unread data) terminator }
        lines limits (ByteReader.bound blk + 1) blk [] 0 := by
  cases e <;> simp_all [Headers.readBlock]

/-- A header block read from a stream answers, for all limits, as the reference does on the
bytes of the stream. -/
theorem readBlock_answers (hZ : Streams Z) {src : σ} {S : List UInt8} (h : Z src S)
    (limits : Limits) :
    BlockAnswers Z (Headers.readBlock src limits) (Headers.ofBlockBytes limits S) := by
  obtain ⟨g, hg, hrest, -⟩ := (Pushback.streams_over hZ).readUpTo
    (show Pushback.Over Z { inner := src } S from ⟨S, h, rfl⟩) 2
  have hend : (if 2 ≤ S.length then Ending.filled else .ended) ≠ .failed := by split <;> simp
  rw [readBlock_of_gathered hg hend]
  by_cases hcrlf : S.take 2 = [13, 10]
  · simp only [hcrlf, if_true, Headers.ofBlockBytes]
    exact ⟨rfl, hrest⟩
  -- the block runs to the leftmost empty line, read through a scanner of it
  have hblk := Scanner.tracks_withSource (Pushback.over_unread hrest (S.take 2)) terminator
  rw [List.take_append_drop] at hblk
  have hover : Pushback.Over (fun sc U => Scanner.Tracks Z sc U (terminator.after S))
      { inner := Scanner.withSource (g.unread (S.take 2)) terminator } (terminator.before S) :=
    ⟨_, hblk, rfl⟩
  have hbound := (Pushback.streams_over (Scanner.streams_tracks hZ _)).bound hover
  have hlines := lines_answers hZ limits _ _ _ [] hover (Nat.lt_succ_of_le hbound)
  simpa [hcrlf, Headers.ofBlockBytes, Delimiter.cut_getD] using hlines

end Block

/-- A header block read from a source, in pieces of any size, answers for all limits as the
reference does on the source's bytes: the same headers with a body that yields what follows the
block, or the same failure. -/
theorem readBlock_follows_reference (S : List UInt8) (chunk : Option Nat) (limits : Limits) :
    match Headers.ofBlockBytes limits S with
    | .ok (hs, B) => ∃ body,
        Headers.readBlock ({ data := S, chunk } : Source) limits = .ok (hs, body) ∧ Yields body B
    | .error f => ∃ s, Headers.readBlock ({ data := S, chunk } : Source) limits = .error (f, s) := by
  have hsrc : (fun (s : Source) xs => s.data = xs ∧ s.fails = false) { data := S, chunk } S :=
    ⟨rfl, rfl⟩
  have h := readBlock_answers Source.streams hsrc limits
  generalize Headers.ofBlockBytes limits S = r at h ⊢
  rcases r with f | ⟨hs, B⟩
  · exact h.of_error
  · obtain ⟨body, hbody, hover⟩ := h.of_ok
    exact ⟨body, hbody, _, Pushback.streams_over Source.streams, hover⟩

end HeaderBlock

end MimeMultipart
