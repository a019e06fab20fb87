import MimeMultipart.Proofs.ScannerStream
import MimeMultipart.Segments
/-!
# A chain of scanners

A stream read as a chain of scanners of one delimiter `d`, each over the stream the previous one
leaves after its delimiter, gives exactly the pieces that `d.split` cuts from the stream's bytes:
the bytes before the leftmost occurrence, then the pieces of what follows it (`split_eq`). No
byte is lost or read twice: joined with `d` the pieces are the stream again, and there is one
piece more than there are occurrences of `d` met scanning from the left, each search resuming
after the occurrence it found.

## Main statements

* `Delimiter.intercalate_split`: the pieces joined by the delimiter give the text back.
* `Delimiter.length_split`: there is one piece more than there are occurrences.
* `Scanner.segmentsFrom_eq_split`: a chain over a stream reads the pieces of its bytes.
* `Scanner.chain_splits_stream`: over a source read in pieces of any size, the chain gives the
  split of the source's bytes, which joins back to them and counts the occurrences.
-/

namespace MimeMultipart

namespace Delimiter

/-! ## Pieces and occurrences -/

/-- The number of occurrences of `d` in `X` met scanning from the left, each search resuming right
after the occurrence it found: the leftmost occurrences that do not overlap. -/
def occurrences (d : Delimiter) (X : List UInt8) : Nat :=
  match X with
  | [] => 0
  | b :: rest =>
    if d.bytes.isPrefixOf (b :: rest) then d.occurrences ((b :: rest).drop d.length) + 1
    else d.occurrences rest
termination_by X.length
decreasing_by
  · have := d.length_pos
    simp only [List.length_drop, List.length_cons]
    omega
  · simp

variable {d : Delimiter}

theorem occurrences_drop_of_none_before :
    ∀ {X : List UInt8} {k : Nat}, k ≤ X.length → (∀ q < k, ¬d.bytes <+: X.drop q) →
      d.occurrences X = d.occurrences (X.drop k)
  | _, 0, _, _ => rfl
  | [], _ + 1, hk, _ => absurd hk (by simp)
  | b :: rest, k + 1, hk, hnone => by
    have hhead : d.bytes.isPrefixOf (b :: rest) = false := by
      rw [Bool.eq_false_iff, ne_eq, List.isPrefixOf_iff_prefix]
      exact hnone 0 (by omega)
    rw [occurrences, if_neg (by simp [hhead]), List.drop_succ_cons]
    exact occurrences_drop_of_none_before (by simpa using hk)
      fun q hq => by simpa using hnone (q + 1) (by omega)

theorem occurrences_of_after_none {X : List UInt8} (h : d.after X = none) : d.occurrences X = 0 := by
  have hnone : d.find X = none := by
    cases hf : d.find X with
    | none => rfl
    | some p => rw [after_of_find_some hf] at h; cases h
  rw [occurrences_drop_of_none_before (Nat.le_refl _)
    fun q _ => find_eq_none_iff.1 hnone q, List.drop_length, occurrences]

theorem occurrences_of_after_some {X R : List UInt8} (h : d.after X = some R) :
    d.occurrences X = d.occurrences R + 1 := by
  obtain ⟨p, hf⟩ : ∃ p, d.find X = some p := by
    cases hf : d.find X with
    | none => rw [after_of_find_none hf] at h; cases h
    | some p => exact ⟨p, rfl⟩
  obtain ⟨hocc, hfirst⟩ := find_eq_some_iff.1 hf
  have hle := find_add_length_le hf
  rw [after_of_find_some hf, Option.some.injEq] at h
  subst h
  rw [occurrences_drop_of_none_before (by omega) hfirst]
  -- the delimiter starts the text left after the bytes passed over
  obtain ⟨b, rest, hbr⟩ : ∃ b rest, X.drop p = b :: rest := by
    cases hX : X.drop p with
    | nil =>
      have := d.length_pos
      simp only [List.drop_eq_nil_iff] at hX
      omega
    | cons b rest => exact ⟨b, rest, rfl⟩
  have hpre : d.bytes.isPrefixOf (b :: rest) = true := by
    rw [List.isPrefixOf_iff_prefix, ← hbr]
    exact hocc
  rw [hbr, occurrences, if_pos hpre, ← hbr, List.drop_drop]

/-- The pieces of a text, joined by the delimiter, give the text back. The recursion follows the
split: the piece before the leftmost occurrence, then the pieces of what comes after it. -/
theorem intercalate_split (d : Delimiter) (X : List UInt8) : d.bytes.intercalate (d.split X) = X := by
  rw [split_eq]
  cases h : d.after X with
  | none => simp [before_of_after_none h]
  | some R =>
    obtain ⟨y, ys, hys⟩ : ∃ y ys, d.split R = y :: ys := ⟨_, _, split_eq d R⟩
    have hR := intercalate_split d R
    rw [Option.elim_some, hys, List.intercalate_cons_cons, ← hys, hR]
    exact (before_append_after h).symm
termination_by X.length
decreasing_by exact length_after_lt h

theorem length_split (d : Delimiter) (X : List UInt8) :
    (d.split X).length = d.occurrences X + 1 := by
  rw [split_eq]
  cases h : d.after X with
  | none => simp [occurrences_of_after_none h]
  | some R =>
    have hR := length_split d R
    rw [Option.elim_some, List.length_cons, hR, occurrences_of_after_some h]
termination_by X.length
decreasing_by exact length_after_lt h

end Delimiter

/-! ## The chain -/

namespace Scanner

variable {σ : Type} [ByteReader σ] {Z : σ → List UInt8 → Prop}

/-- A chain started by a scanner of `d` over a stream of `X` reads the pieces of `X` after those
already read, as long as its fuel exceeds the length of `X`. The induction is on the fuel: each
link reads the piece before the leftmost occurrence and hands the stream after it, which is
shorter, to the next link. -/
theorem segmentsFrom_eq_split (hZ : Streams Z) (d : Delimiter) :
    ∀ (fuel : Nat) (p : Pushback σ) (X : List UInt8) (acc : List (List UInt8)),
      Pushback.Over Z p X → X.length < fuel →
      segmentsFrom d fuel (withSource p d) acc = .ok (acc.reverse ++ d.split X) := by
  intro fuel
  induction fuel with
  | zero => intro _ _ _ _ hfuel; omega
  | succ fuel ih =>
    intro p X acc hp hfuel
    -- the link reads the piece before the delimiter and is then finished
    obtain ⟨sc', hg, hdone, hend⟩ :=
      (streams_tracks hZ (d.after X)).readToEnd (tracks_withSource hp d)
    have hfound := (finished_of_tracks hdone (finished_of_answeredEnd hZ hend)).2
    have hpiece : (ByteReader.readToEnd (withSource p d)).bytes? = .ok (d.before X) := by
      rw [hg]
      rfl
    rw [segmentsFrom, hpiece, hg, Delimiter.split_eq d X]
    cases h : d.after X with
    | none =>
      rw [h] at hfound
      simp [hfound]
    | some R =>
      -- the next link reads the stream after the delimiter
      obtain ⟨q, hq, hover⟩ := intoRemaining_tracks hZ hdone
      rw [h, Option.getD_some] at hover
      have hR := Delimiter.length_after_lt h
      rw [h] at hfound
      simp only [hfound, Option.isSome_some, if_true, hq, Option.elim_some]
      rw [ih q R (d.before X :: acc) hover (by omega)]
      simp

/-- A chain over a stream that yields `S` reads the pieces of `S`. -/
theorem segments_eq_split {src : σ} {S : List UInt8} (hS : Yields src S) (d : Delimiter) :
    segments src d = .ok (d.split S) := by
  obtain ⟨Z, hZ, h⟩ := hS
  have hp : Pushback.Over Z { inner := src } S := ⟨S, h, rfl⟩
  have hbound := (Pushback.streams_over hZ).bound hp
  have hfuel : S.length < ByteReader.bound (new src d) + 1 := by
    show S.length < (if (new src d).finished then 0 else [].length + ByteReader.bound _) + 1
    simp only [new, withSource, finished, Bool.false_eq_true, if_false, List.length_nil]
    omega
  have hchain := segmentsFrom_eq_split hZ d _ _ S [] hp hfuel
  rw [List.reverse_nil, List.nil_append] at hchain
  exact hchain

/-- A chain of scanners of `d` over a source read in pieces of any size gives the pieces of the
source's bytes between the leftmost occurrences of `d`; joined with `d` they are the bytes again,
and there is one piece more than there are occurrences of `d` met from the left. -/
theorem chain_splits_stream (d : Delimiter) (S : List UInt8) (chunk : Option Nat) :
    segments ({ data := S, chunk } : Source) d = .ok (d.split S) ∧
      d.bytes.intercalate (d.split S) = S ∧ (d.split S).length = d.occurrences S + 1 :=
  ⟨segments_eq_split (Source.yields _ rfl) d, d.intercalate_split S, d.length_split S⟩

end Scanner

end MimeMultipart
