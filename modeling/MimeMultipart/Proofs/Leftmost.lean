import MimeMultipart.Proofs.Search
/-!
# Leftmost occurrences in pieces of a text

What a reader that stops at a delimiter `d` makes of a text `X`: `d.before X`, the bytes before
the leftmost occurrence (all of `X` when there is none), and `d.after X`, the bytes after it when
there is one. `Delimiter.cut` and `Delimiter.split` unfold into them (`cut_eq`, `split_eq`).

A scanner searches windows of a stream, not the whole stream, so the lemmas here relate the
leftmost occurrence in a text to the one in a part of it: an occurrence found in a prefix is the
leftmost of the whole text (`find_append`), and bytes at which no occurrence can start may be
dropped from the front (`before_drop`, `after_drop`).
-/

namespace MimeMultipart

namespace Delimiter

variable {d : Delimiter}

theorem length_eq (d : Delimiter) : d.length = d.bytes.length := rfl

theorem find_eq_some_iff {X : List UInt8} {p : Nat} :
    d.find X = some p ↔ d.bytes <+: X.drop p ∧ ∀ q < p, ¬d.bytes <+: X.drop q := by
  rw [find_eq_firstMatch, firstMatch_eq_some_iff]

theorem find_eq_none_iff {X : List UInt8} :
    d.find X = none ↔ ∀ q, ¬d.bytes <+: X.drop q := by
  rw [find_eq_firstMatch, firstMatch_eq_none_iff]

theorem find_add_length_le {X : List UInt8} {p : Nat} (h : d.find X = some p) :
    p + d.length ≤ X.length := by
  have := (find_eq_some_iff.1 h).1.length_le
  simp only [List.length_drop] at this
  rw [length_eq]
  have := find_eq_some_iff.1 h
  have hpos := d.length_pos
  rw [length_eq] at hpos
  omega

/-- The leftmost occurrence in a prefix is the leftmost in the whole text. -/
theorem find_append {X : List UInt8} {p : Nat} (h : d.find X = some p) (Y : List UInt8) :
    d.find (X ++ Y) = some p := by
  obtain ⟨hp, hfirst⟩ := find_eq_some_iff.1 h
  have hle := find_add_length_le h
  rw [length_eq] at hle
  refine find_eq_some_iff.2 ⟨?_, fun q hq hocc => hfirst q hq (prefix_drop_append hocc (by omega))⟩
  rw [List.drop_append_of_le_length (by omega)]
  exact hp.trans (List.prefix_append _ _)

/-- Where no occurrence starts before `k`, the leftmost one is found after the first `k` bytes. -/
theorem find_of_none_before {X : List UInt8} {k : Nat} (h : ∀ q < k, ¬d.bytes <+: X.drop q) :
    d.find X = (d.find (X.drop k)).map (· + k) := by
  cases hk : d.find (X.drop k) with
  | some p =>
    obtain ⟨hp, hfirst⟩ := find_eq_some_iff.1 hk
    show d.find X = some (p + k)
    refine find_eq_some_iff.2 ⟨by rwa [List.drop_drop, Nat.add_comm] at hp, fun q hq hocc => ?_⟩
    by_cases hqk : q < k
    · exact h q hqk hocc
    · exact hfirst (q - k) (by omega) (by rwa [List.drop_drop, show k + (q - k) = q by omega])
  | none =>
    refine find_eq_none_iff.2 fun q hocc => ?_
    by_cases hqk : q < k
    · exact h q hqk hocc
    · exact find_eq_none_iff.1 hk (q - k) (by rwa [List.drop_drop, show k + (q - k) = q by omega])

/-- Without an occurrence inside `w`, none starts at the first `k` bytes of `w ++ T` while the
delimiter does not fit in what follows them in `w`. -/
theorem none_before_of_find_none {w T : List UInt8} {k : Nat} (hw : d.find w = none)
    (hk : k + d.length ≤ w.length + 1) : ∀ q < k, ¬d.bytes <+: (w ++ T).drop q := by
  intro q hq hocc
  rw [length_eq] at hk
  exact find_eq_none_iff.1 hw q (prefix_drop_append hocc (by omega))

theorem find_drop_of_none {w : List UInt8} (hw : d.find w = none) (k : Nat) :
    d.find (w.drop k) = none := by
  refine find_eq_none_iff.2 fun q hocc => find_eq_none_iff.1 hw (k + q) ?_
  rwa [List.drop_drop] at hocc

/-! ## Before and after the leftmost occurrence -/

/-- The bytes of `X` before the leftmost occurrence of `d`; all of `X` when `d` does not occur. -/
def before (d : Delimiter) (X : List UInt8) : List UInt8 :=
  match firstMatch d.bytes X with
  | some p => X.take p
  | none => X

/-- The bytes of `X` after the leftmost occurrence of `d`, when it occurs. -/
def after (d : Delimiter) (X : List UInt8) : Option (List UInt8) :=
  (firstMatch d.bytes X).map fun p => X.drop (p + d.length)

theorem before_of_find_some {X : List UInt8} {p : Nat} (h : d.find X = some p) :
    d.before X = X.take p := by
  rw [find_eq_firstMatch] at h
  simp [before, h]

theorem after_of_find_some {X : List UInt8} {p : Nat} (h : d.find X = some p) :
    d.after X = some (X.drop (p + d.length)) := by
  rw [find_eq_firstMatch] at h
  simp [after, h]

theorem before_of_find_none {X : List UInt8} (h : d.find X = none) : d.before X = X := by
  rw [find_eq_firstMatch] at h
  simp [before, h]

theorem after_of_find_none {X : List UInt8} (h : d.find X = none) : d.after X = none := by
  rw [find_eq_firstMatch] at h
  simp [after, h]

theorem before_of_after_none {X : List UInt8} (h : d.after X = none) : d.before X = X := by
  cases hf : d.find X with
  | none => exact before_of_find_none hf
  | some p => rw [after_of_find_some hf] at h; cases h

theorem cut_eq (d : Delimiter) (X : List UInt8) :
    d.cut X = (d.after X).map fun r => (d.before X, r) := by
  cases h : d.find X with
  | some p => simp [cut, h, before_of_find_some h, after_of_find_some h]
  | none => simp [cut, h, after_of_find_none h]

theorem cut_getD (d : Delimiter) (X : List UInt8) :
    (d.cut X).getD (X, []) = (d.before X, (d.after X).getD []) := by
  rw [cut_eq]
  cases h : d.after X with
  | none => simp [before_of_after_none h]
  | some R => rfl

theorem infix_iff_prefix_drop {P X : List UInt8} : P <:+: X ↔ ∃ q, P <+: X.drop q := by
  rw [List.infix_iff_prefix_suffix]
  constructor
  · rintro ⟨t, hpt, hts⟩
    rw [List.suffix_iff_eq_drop] at hts
    exact ⟨_, hts ▸ hpt⟩
  · rintro ⟨q, hq⟩
    exact ⟨_, hq, List.drop_suffix _ _⟩

theorem after_isSome_iff {X : List UInt8} : (d.after X).isSome = true ↔ d.bytes <:+: X := by
  rw [infix_iff_prefix_drop]
  cases h : d.find X with
  | some p =>
    simp only [after_of_find_some h, Option.isSome_some, true_iff]
    exact ⟨p, (find_eq_some_iff.1 h).1⟩
  | none =>
    simp only [after_of_find_none h, Option.isSome_none, Bool.false_eq_true, false_iff,
      not_exists]
    exact find_eq_none_iff.1 h

theorem before_prefix_self (d : Delimiter) (X : List UInt8) : d.before X <+: X := by
  cases h : d.find X with
  | some p => rw [before_of_find_some h]; exact List.take_prefix _ _
  | none => simpa only [before_of_find_none h] using List.prefix_refl X

/-- Around its leftmost occurrence a text is what comes before, the delimiter, and what
comes after. -/
theorem before_append_after {X R : List UInt8} (h : d.after X = some R) :
    X = d.before X ++ d.bytes ++ R := by
  cases hf : d.find X with
  | none => rw [after_of_find_none hf] at h; cases h
  | some p =>
    rw [after_of_find_some hf, Option.some.injEq] at h
    subst h
    have hocc := (find_eq_some_iff.1 hf).1
    rw [before_of_find_some hf, List.prefix_iff_eq_take] at *
    have hlen := find_add_length_le hf
    rw [length_eq] at hlen
    calc X = X.take p ++ (X.drop p).take d.bytes.length ++ (X.drop p).drop d.bytes.length := by
            simp only [List.append_assoc, List.take_append_drop]
      _ = X.take p ++ d.bytes ++ X.drop (p + d.length) := by
            rw [← hocc, List.drop_drop, length_eq]

theorem length_before_le (d : Delimiter) (X : List UInt8) : (d.before X).length ≤ X.length :=
  (before_prefix_self d X).length_le

theorem length_after_lt {X R : List UInt8} (h : d.after X = some R) : R.length < X.length := by
  have hlen := congrArg List.length (before_append_after h)
  have hpos := d.length_pos
  simp only [List.length_append] at hlen
  rw [length_eq] at hpos
  omega

/-- Bytes at which no occurrence starts pass through to the text before the delimiter. -/
theorem find_append_of_none_before {X R : List UInt8}
    (h : ∀ q < X.length, ¬d.bytes <+: (X ++ R).drop q) :
    d.find (X ++ R) = (d.find R).map (· + X.length) := by
  rw [find_of_none_before h, List.drop_left]

theorem before_append_of_none_before {X R : List UInt8}
    (h : ∀ q < X.length, ¬d.bytes <+: (X ++ R).drop q) :
    d.before (X ++ R) = X ++ d.before R := by
  have hshift := find_append_of_none_before h
  cases hf : d.find R with
  | none =>
    rw [hf, Option.map_none] at hshift
    rw [before_of_find_none hshift, before_of_find_none hf]
  | some p =>
    rw [hf, Option.map_some] at hshift
    rw [before_of_find_some hshift, before_of_find_some hf, List.take_append,
      List.take_of_length_le (by omega), Nat.add_sub_cancel]

theorem after_append_of_none_before {X R : List UInt8}
    (h : ∀ q < X.length, ¬d.bytes <+: (X ++ R).drop q) :
    d.after (X ++ R) = d.after R := by
  have hshift := find_append_of_none_before h
  cases hf : d.find R with
  | none =>
    rw [hf, Option.map_none] at hshift
    rw [after_of_find_none hshift, after_of_find_none hf]
  | some p =>
    rw [hf, Option.map_some] at hshift
    rw [after_of_find_some hshift, after_of_find_some hf, List.drop_append,
      List.drop_eq_nil_of_le (by omega), List.nil_append]
    congr 2
    omega

/-- A delimiter that occurs first right after `X` in `X` followed by it cuts there in any text
that goes on after it. -/
theorem before_after_of_find_bytes {X : List UInt8} (h : d.find (X ++ d.bytes) = some X.length)
    (Y : List UInt8) : d.before (X ++ d.bytes ++ Y) = X ∧ d.after (X ++ d.bytes ++ Y) = some Y := by
  have hf := find_append h Y
  refine ⟨?_, ?_⟩
  · rw [before_of_find_some hf, List.append_assoc, List.take_left]
  · rw [after_of_find_some hf, List.append_assoc, length_eq, ← List.drop_drop, List.drop_left,
      List.drop_left]

/-! ## Splitting -/

theorem splitFrom_congr : ∀ {f g : Nat} {X : List UInt8}, X.length < f → X.length < g →
    d.splitFrom f X = d.splitFrom g X
  | f + 1, g + 1, X, hf, hg => by
    simp only [splitFrom, cut_eq]
    cases h : d.after X with
    | none => rfl
    | some R =>
      have hR := length_after_lt h
      simp only [Option.map_some, List.cons.injEq, true_and]
      exact splitFrom_congr (by omega) (by omega)

/-- A split is the piece before the leftmost occurrence followed by the split of what comes
after it. -/
theorem split_eq (d : Delimiter) (X : List UInt8) :
    d.split X = d.before X :: (d.after X).elim [] d.split := by
  rw [split, splitFrom, cut_eq]
  cases h : d.after X with
  | none => simp [before_of_after_none h]
  | some R =>
    simp only [Option.map_some, Option.elim_some, split]
    exact congrArg _ (splitFrom_congr (by have := length_after_lt h; omega) (by omega))

/-- Pieces joined by the delimiter split back into the pieces when the delimiter occurs first
where it was put, and not in the last piece. -/
theorem split_intercalate : ∀ (ts : List (List UInt8)), ts ≠ [] →
    (∀ t ∈ ts.dropLast, d.find (t ++ d.bytes) = some t.length) →
    (∀ t ∈ ts.getLast?, d.find t = none) → d.split (d.bytes.intercalate ts) = ts
  | [], h, _, _ => absurd rfl h
  | [t], _, _, hlast => by
    have hf := hlast t rfl
    rw [List.intercalate_singleton, split_eq, before_of_find_none hf, after_of_find_none hf]
    rfl
  | t :: t' :: rest, _, hsep, hlast => by
    obtain ⟨hb, ha⟩ := before_after_of_find_bytes (hsep t (by simp))
      (d.bytes.intercalate (t' :: rest))
    have hrest := split_intercalate (t' :: rest) (by simp)
      (fun x hx => hsep x (by simp only [List.dropLast_cons_cons]; exact List.mem_cons_of_mem _ hx))
      (by simpa only [List.getLast?_cons_cons] using hlast)
    rw [List.intercalate_cons_cons, split_eq, hb, ha, Option.elim_some, hrest]

/-! ## Windows -/

section Window

variable {w T : List UInt8} {k : Nat}

/-- Dropping bytes at which no occurrence can start drops them from what comes before. -/
theorem before_drop (hw : d.find w = none) (hk : k + d.length ≤ w.length) :
    d.before (w.drop k ++ T) = (d.before (w ++ T)).drop k := by
  have hshift : d.find (w ++ T) = (d.find ((w ++ T).drop k)).map (· + k) :=
    find_of_none_before (none_before_of_find_none hw (by omega))
  rw [List.drop_append_of_le_length (by rw [length_eq] at hk; omega)] at hshift
  cases hf : d.find (w.drop k ++ T) with
  | some p =>
    simp only [hf, Option.map_some] at hshift
    rw [before_of_find_some hf, before_of_find_some hshift, List.drop_take,
      List.drop_append_of_le_length (by rw [length_eq] at hk; omega)]
    simp
  | none =>
    simp only [hf, Option.map_none] at hshift
    rw [before_of_find_none hf, before_of_find_none hshift,
      List.drop_append_of_le_length (by rw [length_eq] at hk; omega)]

/-- Dropping bytes at which no occurrence can start keeps what comes after. -/
theorem after_drop (hw : d.find w = none) (hk : k + d.length ≤ w.length) :
    d.after (w.drop k ++ T) = d.after (w ++ T) := by
  have hshift : d.find (w ++ T) = (d.find ((w ++ T).drop k)).map (· + k) :=
    find_of_none_before (none_before_of_find_none hw (by omega))
  rw [List.drop_append_of_le_length (by rw [length_eq] at hk; omega)] at hshift
  cases hf : d.find (w.drop k ++ T) with
  | some p =>
    simp only [hf, Option.map_some] at hshift
    rw [after_of_find_some hf, after_of_find_some hshift, Option.some.injEq,
      ← List.drop_append_of_le_length (by rw [length_eq] at hk; omega), List.drop_drop]
    congr 1
    omega
  | none =>
    simp only [hf, Option.map_none] at hshift
    rw [after_of_find_none hf, after_of_find_none hshift]

/-- The bytes of a window that no occurrence can start at come first in what comes before. -/
theorem take_prefix_before (hw : d.find w = none) (hk : k + d.length ≤ w.length) :
    w.take k <+: d.before (w ++ T) := by
  have hshift : d.find (w ++ T) = (d.find ((w ++ T).drop k)).map (· + k) :=
    find_of_none_before (none_before_of_find_none hw (by omega))
  have hkw : k ≤ w.length := by rw [length_eq] at hk; omega
  cases hf : d.find ((w ++ T).drop k) with
  | some p =>
    simp only [hf, Option.map_some] at hshift
    rw [before_of_find_some hshift, ← List.take_append_of_le_length hkw]
    exact List.take_prefix_take_left (by omega)
  | none =>
    simp only [hf, Option.map_none] at hshift
    rw [before_of_find_none hshift]
    have htake := List.take_prefix k w
    exact htake.trans (List.prefix_append _ _)

/-- An occurrence found in a window is the leftmost of the window and all that follows. -/
theorem before_append_of_find (h : d.find w = some k) : d.before (w ++ T) = w.take k := by
  rw [before_of_find_some (find_append h T),
    List.take_append_of_le_length (by have := find_add_length_le h; omega)]

theorem after_append_of_find (h : d.find w = some k) :
    d.after (w ++ T) = some (w.drop (k + d.length) ++ T) := by
  rw [after_of_find_some (find_append h T),
    List.drop_append_of_le_length (find_add_length_le h)]

end Window

/-! ## Delimiters of one byte -/

/-- With a delimiter of one byte the leftmost occurrence is where the first such byte is. -/
theorem firstMatch_single (b : UInt8) (X : List UInt8) :
    firstMatch [b] X = if X.contains b then some (X.takeWhile (· != b)).length else none := by
  induction X with
  | nil => simp [firstMatch]
  | cons x xs ih =>
    by_cases hx : x = b
    · subst hx; simp [firstMatch]
    · have hpre : [b].isPrefixOf (x :: xs) = false := by simp [List.isPrefixOf, Ne.symm hx]
      have hne : (x != b) = true := by simpa using hx
      rw [firstMatch, if_neg (by simp [hpre]), ih]
      by_cases hm : b ∈ xs <;> simp [hm, Ne.symm hx, hne]

theorem takeWhile_of_not_contains {b : UInt8} {X : List UInt8} (hc : X.contains b = false) :
    X.takeWhile (· != b) = X := by
  induction X with
  | nil => rfl
  | cons x xs ih =>
    simp only [List.contains_cons, Bool.or_eq_false_iff] at hc
    have hx : x ≠ b := fun h => by simp [h] at hc
    simp [hx, ih hc.2]

theorem before_single (b : UInt8) (hb : [b] ≠ []) (X : List UInt8) :
    (⟨[b], hb⟩ : Delimiter).before X = X.takeWhile (· != b) := by
  rw [before, firstMatch_single]
  cases hc : X.contains b
  · simp [takeWhile_of_not_contains hc]
  · exact (List.prefix_iff_eq_take.1 (List.takeWhile_prefix _)).symm

theorem after_single (b : UInt8) (hb : [b] ≠ []) (X : List UInt8) :
    (⟨[b], hb⟩ : Delimiter).after X =
      if X.contains b then some ((X.dropWhile (· != b)).drop 1) else none := by
  rw [after, firstMatch_single]
  cases hc : X.contains b
  · rfl
  · have hsplit := List.takeWhile_append_dropWhile (p := (· != b)) (l := X)
    simp only [Option.map_some, if_true, Option.some.injEq, Delimiter.length, List.length_singleton]
    have hdrop : X.drop (X.takeWhile (· != b)).length = X.dropWhile (· != b) := by
      conv => lhs; arg 2; rw [← hsplit]
      exact List.drop_left
    rw [← List.drop_drop, hdrop]

end Delimiter

end MimeMultipart
