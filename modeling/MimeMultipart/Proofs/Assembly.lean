import MimeMultipart.Proofs.Splitting
/-!
# Splitting inverts assembly

`Boundary.assemble` writes a message from a preamble, parts and an epilogue: the opening
delimiter, the parts joined by separators, each its header lines `name:value`, an empty line
and its body, then the closing delimiter. When every delimiter occurs first where it was
written, the message splits back into those pieces (`layout_assemble`), and each part's header
block reads back as its headers and body (`ofBlockBytes_partText`), provided no header name is
empty or holds a colon and no header line holds a line end. `splitting_inverts_assembly` puts
this together with the splitting theorem: read with any chunking, the message gives back the
preamble, the parts in order and the epilogue.

The header block of a part ends at the first empty line; `terminator_lines` shows that lines
without line ends, none of them empty, put the first one after the last line.
-/

namespace MimeMultipart

/-- Headers with the given names and values, read as ISO-8859-1. -/
def Headers.ofFields (fields : List (List UInt8 × List UInt8)) : Headers :=
  ⟨fields.map fun h => ⟨Latin1.decode h.1, Latin1.decode h.2⟩⟩

namespace HeaderBlock

open Delimiter

/-! ## Header lines -/

/-- No line end starts inside a line without one, even where the line is followed by a line
end. -/
theorem crlf_not_in_line {ℓ : List UInt8} (hℓ : ¬[13, 10] <:+: ℓ) (R : List UInt8) :
    ∀ q < ℓ.length, ¬[13, 10] <+: (ℓ ++ 13 :: 10 :: R).drop q := by
  intro q hq hocc
  by_cases hq2 : q + 2 ≤ ℓ.length
  · exact hℓ (infix_iff_prefix_drop.2 ⟨q, prefix_drop_append hocc hq2⟩)
  · -- the occurrence would start at the last byte of the line, followed by a carriage return
    have hlast : (ℓ.drop q).length = 1 := by simp; omega
    obtain ⟨x, hx⟩ := List.length_eq_one_iff.1 hlast
    rw [List.drop_append_of_le_length (by omega), hx] at hocc
    simp at hocc

theorem lineEnd_find_append {ℓ : List UInt8} (hℓ : ¬[13, 10] <:+: ℓ) :
    lineEnd.find (ℓ ++ lineEnd.bytes) = some ℓ.length :=
  find_eq_some_iff.2 ⟨by simp, fun q hq => crlf_not_in_line hℓ [] q hq⟩

theorem lineEnd_find_none {ℓ : List UInt8} (hℓ : ¬[13, 10] <:+: ℓ) :
    lineEnd.find ℓ = none :=
  find_eq_none_iff.2 fun q hq => hℓ (infix_iff_prefix_drop.2 ⟨q, hq⟩)

theorem terminator_not_in_line {ℓ : List UInt8} (hℓ : ¬[13, 10] <:+: ℓ) (R : List UInt8) :
    ∀ q < ℓ.length, ¬terminator.bytes <+: (ℓ ++ 13 :: 10 :: R).drop q := fun q hq hocc =>
  crlf_not_in_line hℓ R q hq (List.IsPrefix.trans ⟨[13, 10], rfl⟩ hocc)

theorem terminator_after_line {ℓ R : List UInt8} (hℓ : ¬[13, 10] <:+: ℓ)
    (hR : ¬[13, 10] <+: R) :
    terminator.before (ℓ ++ 13 :: 10 :: R) = ℓ ++ 13 :: 10 :: terminator.before R ∧
      terminator.after (ℓ ++ 13 :: 10 :: R) = terminator.after R := by
  have hskip : ∀ q < (ℓ ++ [13, 10]).length,
      ¬terminator.bytes <+: ((ℓ ++ [13, 10]) ++ R).drop q := by
    intro q hq hocc
    rw [List.append_assoc] at hocc
    simp only [List.length_append, List.length_cons, List.length_nil] at hq
    by_cases hql : q < ℓ.length
    · exact terminator_not_in_line hℓ R q hql hocc
    · rw [List.drop_append, List.drop_eq_nil_of_le (by omega), List.nil_append] at hocc
      obtain h | h : q - ℓ.length = 0 ∨ q - ℓ.length = 1 := by omega
      · rw [h, List.drop_zero] at hocc
        exact hR (by simpa [terminator] using hocc)
      · rw [h] at hocc
        simp [terminator] at hocc
  have hb := before_append_of_none_before hskip
  have ha := after_append_of_none_before hskip
  simp only [List.append_assoc, List.cons_append, List.nil_append] at hb ha
  exact ⟨hb, ha⟩

theorem terminator_last_line {ℓ : List UInt8} (hℓ : ¬[13, 10] <:+: ℓ) (body : List UInt8) :
    terminator.before (ℓ ++ 13 :: 10 :: 13 :: 10 :: body) = ℓ ∧
      terminator.after (ℓ ++ 13 :: 10 :: 13 :: 10 :: body) = some body := by
  have hfind : terminator.find (ℓ ++ terminator.bytes) = some ℓ.length :=
    find_eq_some_iff.2 ⟨by simp, fun q hq => terminator_not_in_line hℓ [13, 10] q hq⟩
  simpa [terminator] using before_after_of_find_bytes hfind body

/-- Lines that are not empty and hold no line end, each followed by a line end, then an empty
line: the block is the lines joined by line ends, and the body follows it. -/
theorem terminator_lines : ∀ (lines : List (List UInt8)), lines ≠ [] →
    (∀ ℓ ∈ lines, ℓ ≠ [] ∧ ¬[13, 10] <:+: ℓ) → ∀ body : List UInt8,
      terminator.before (lines.flatMap (· ++ [13, 10]) ++ 13 :: 10 :: body) =
          lineEnd.bytes.intercalate lines ∧
        terminator.after (lines.flatMap (· ++ [13, 10]) ++ 13 :: 10 :: body) = some body
  | [], h, _, _ => absurd rfl h
  | [ℓ], _, hl, body => by
    simpa using terminator_last_line (hl ℓ (by simp)).2 body
  | ℓ :: ℓ' :: rest, _, hl, body => by
    obtain ⟨-, hℓ⟩ := hl ℓ (by simp)
    obtain ⟨hne', hℓ'⟩ := hl ℓ' (by simp)
    -- what follows the first line starts with the next line, not with a line end
    have hR : ¬[13, 10] <+: ((ℓ' :: rest).flatMap (· ++ [13, 10]) ++ 13 :: 10 :: body) := by
      have h0 := crlf_not_in_line hℓ' ((rest.flatMap (· ++ [13, 10])) ++ 13 :: 10 :: body) 0
        (List.length_pos_iff.2 hne')
      simpa using h0
    obtain ⟨hb, ha⟩ := terminator_after_line hℓ hR
    obtain ⟨hb', ha'⟩ := terminator_lines (ℓ' :: rest) (by simp)
      (fun x hx => hl x (List.mem_cons_of_mem _ hx)) body
    have htext : (ℓ :: ℓ' :: rest).flatMap (· ++ [13, 10]) ++ 13 :: 10 :: body =
        ℓ ++ 13 :: 10 :: ((ℓ' :: rest).flatMap (· ++ [13, 10]) ++ 13 :: 10 :: body) := by
      simp
    rw [htext, hb, ha, hb', ha', List.intercalate_cons_cons]
    exact ⟨by simp [lineEnd], rfl⟩

theorem linesOf_intercalate {lines : List (List UInt8)} (hne : lines ≠ [])
    (hl : ∀ ℓ ∈ lines, ℓ ≠ [] ∧ ¬[13, 10] <:+: ℓ) :
    linesOf (lineEnd.bytes.intercalate lines) = lines := by
  have hsplit : lineEnd.split (lineEnd.bytes.intercalate lines) = lines :=
    split_intercalate lines hne
      (fun ℓ hℓ => lineEnd_find_append (hl ℓ (List.dropLast_subset _ hℓ)).2)
      (fun ℓ hℓ => lineEnd_find_none (hl ℓ (List.mem_of_getLast? hℓ)).2)
  have hlast : lines.getLast? ≠ some [] := fun h => (hl [] (List.mem_of_getLast? h)).1 rfl
  simp [linesOf, hsplit, hlast]

theorem lineResult_field {name value : List UInt8} (hname : name ≠ [])
    (hcolon : (58 : UInt8) ∉ name) :
    lineResult none (name ++ [58] ++ value) =
      .header ⟨Latin1.decode name, Latin1.decode value⟩ := by
  have hpos : ∀ a ∈ name, (a != 58) = true := fun a ha => by
    simpa using fun h : a = 58 => hcolon (h ▸ ha)
  have htake : (name ++ 58 :: value).takeWhile (· != 58) = name := by
    simp [List.takeWhile_append_of_pos hpos]
  have hdrop : (name ++ 58 :: value).dropWhile (· != 58) = 58 :: value := by
    simp [List.dropWhile_append_of_pos hpos]
  simp [lineResult, htake, hdrop, hname]

theorem headersOf_fields : ∀ (fields : List (List UInt8 × List UInt8)) (hs : Headers),
    (∀ h ∈ fields, h.1 ≠ [] ∧ (58 : UInt8) ∉ h.1) →
    headersOf Limits.unlimited (fields.map fun h => h.1 ++ [58] ++ h.2) hs =
      .ok ⟨hs.entries ++ (Headers.ofFields fields).entries⟩
  | [], hs, _ => by simp [headersOf, Headers.ofFields]
  | h :: fields, hs, hf => by
    obtain ⟨hname, hcolon⟩ := hf h (by simp)
    have hrest := headersOf_fields fields (hs.push ⟨Latin1.decode h.1, Latin1.decode h.2⟩)
      (fun x hx => hf x (List.mem_cons_of_mem _ hx))
    simp only [List.map_cons, headersOf, lineResult_field hname hcolon,
      Limits.unlimited] at hrest ⊢
    rw [hrest]
    simp [Headers.ofFields]

/-- The header block of a part written as its header lines, an empty line and its body reads
back as those headers and that body. -/
theorem ofBlockBytes_partText {fields : List (List UInt8 × List UInt8)} (body : List UInt8)
    (hf : ∀ h ∈ fields,
      h.1 ≠ [] ∧ (58 : UInt8) ∉ h.1 ∧ ¬[13, 10] <:+: h.1 ++ [58] ++ h.2) :
    Headers.ofBlockBytes Limits.unlimited (Boundary.partText fields body) =
      .ok (Headers.ofFields fields, body) := by
  cases fields with
  | nil => simp [Boundary.partText, Headers.ofBlockBytes, Boundary.crlf, Headers.ofFields]
  | cons h rest =>
    have hl : ∀ ℓ ∈ (h :: rest).map (fun h => h.1 ++ [58] ++ h.2),
        ℓ ≠ [] ∧ ¬[13, 10] <:+: ℓ := by
      intro ℓ hℓ
      obtain ⟨x, hx, rfl⟩ := List.mem_map.1 hℓ
      exact ⟨by simp, (hf x hx).2.2⟩
    have htext : Boundary.partText (h :: rest) body =
        ((h :: rest).map fun h => h.1 ++ [58] ++ h.2).flatMap (· ++ [13, 10]) ++
          13 :: 10 :: body := by
      simp [Boundary.partText, Boundary.crlf, List.flatMap_map]
    -- the part starts with its first header line, not with an empty line
    have hstart : (Boundary.partText (h :: rest) body).take 2 ≠ [13, 10] := by
      intro h2
      have hpre : [13, 10] <+: Boundary.partText (h :: rest) body := by
        rw [← h2]
        exact List.take_prefix _ _
      obtain ⟨hne, hcrlf⟩ := hl _ (List.mem_map_of_mem (List.mem_cons_self))
      refine crlf_not_in_line hcrlf
        ((rest.map fun h => h.1 ++ [58] ++ h.2).flatMap (· ++ [13, 10]) ++ 13 :: 10 :: body) 0
        (List.length_pos_iff.2 hne) ?_
      simpa [htext] using hpre
    obtain ⟨hb, ha⟩ := terminator_lines _ (by simp) hl body
    rw [← htext] at hb ha
    simp only [Headers.ofBlockBytes, hstart, if_false, cut_getD, hb, ha, Option.getD_some,
      linesOf_intercalate (by simp) hl]
    rw [headersOf_fields _ {} (fun x hx => ⟨(hf x hx).1, (hf x hx).2.1⟩)]
    rfl

end HeaderBlock

/-! ## The layout of an assembled message -/

namespace Boundary

open Delimiter

/-- A message assembled from its pieces is laid out as those pieces, when each delimiter occurs
first where it was written. -/
theorem layout_assemble (b : Boundary) (P E : List UInt8)
    (parts : List (List (List UInt8 × List UInt8) × List UInt8)) (hne : parts ≠ [])
    (hclosing : b.closing.find (b.assemble P parts E) =
      some ((b.assemble P parts E).length - E.length - b.closing.length))
    (hopening : b.opening.find (P ++ b.opening.bytes) = some P.length)
    (hsep : ∀ t ∈ (parts.map fun p => partText p.1 p.2).dropLast,
      b.interPart.find (t ++ b.interPart.bytes) = some t.length)
    (hlast : ∀ t ∈ (parts.map fun p => partText p.1 p.2).getLast?, b.interPart.find t = none) :
    b.layout (b.assemble P parts E) = ⟨P, parts.map fun p => partText p.1 p.2, E⟩ := by
  -- the message inside the closing delimiter
  have hfind : b.closing.find (b.assemble P parts E) = some (P ++ b.opening.bytes ++
      b.interPart.bytes.intercalate (parts.map fun p => partText p.1 p.2)).length := by
    rw [hclosing]
    simp [assemble, length_eq]
    omega
  have hinside : b.closing.before (b.assemble P parts E) =
      P ++ b.opening.bytes ++
        b.interPart.bytes.intercalate (parts.map fun p => partText p.1 p.2) := by
    rw [before_of_find_some hfind, assemble, List.append_assoc _ b.closing.bytes, List.take_left]
  have hepilogue : b.closing.after (b.assemble P parts E) = some E := by
    rw [after_of_find_some hfind, assemble, List.append_assoc _ b.closing.bytes, length_eq,
      ← List.drop_drop, List.drop_left, List.drop_left]
  obtain ⟨hpre, hrest⟩ := before_after_of_find_bytes hopening
    (b.interPart.bytes.intercalate (parts.map fun p => partText p.1 p.2))
  rw [layout_eq, hinside, hepilogue, hpre, hrest, Option.elim_some, Option.getD_some,
    split_intercalate _ (by simpa using hne) hsep hlast]

end Boundary

/-! ## Reading an assembled message -/

/-- Moves through `n` parts, reading each body to its end, and then moves once more. -/
def Call.throughParts : Nat → List Call
  | 0 => [.next]
  | n + 1 => .next :: .body none :: Call.throughParts n

/-- What moving through parts with the given headers and bodies gives, numbering them from `k`:
each part and its body, then no part. -/
def Reply.throughParts (k : Nat) : List (Headers × List UInt8) → List Reply
  | [] => [.part (.ok none)]
  | (hs, body) :: rest =>
    .part (.ok (some ⟨k, hs⟩)) :: .bytes (.ok body) :: Reply.throughParts (k + 1) rest

/-- A cursor whose segments ahead parse to the given headers and bodies gives them in turn,
numbered from the parts it took before. -/
theorem Cursor.calls_throughParts :
    ∀ (items : List (List UInt8 × Headers × List UInt8)) (c : Cursor),
      (∀ x ∈ items, Headers.ofBlockBytes Limits.unlimited x.1 = .ok x.2) →
      c.ahead = items.map (·.1) → c.stage ≠ .exhausted → c.stage ≠ .poisoned →
      (c.calls Limits.unlimited (Call.throughParts items.length)).1 =
        Reply.throughParts c.yielded (items.map (·.2))
  | [], c, _, hahead, hx, hp => by
    simp [Call.throughParts, calls, call, next, advance_eq_enter hx hp, enter, hahead,
      Reply.throughParts]
  | (s, hs, body) :: rest, c, hitems, hahead, hx, hp => by
    have hblock := hitems (s, hs, body) (by simp)
    have hallow : Limits.unlimited.allowsPart c.yielded = true := rfl
    have hnext := calls_throughParts rest ⟨.body [], rest.map (·.1), c.yielded + 1⟩
      (fun x hx => hitems x (List.mem_cons_of_mem _ hx)) rfl (by simp) (by simp)
    simp only [List.length_cons, Call.throughParts, calls, call, next,
      advance_eq_enter hx hp, enter, hahead, List.map_cons, hallow, Bool.not_true,
      Bool.false_eq_true, ↓reduceIte, hblock, readFrom]
    rw [hnext]
    rfl

namespace Message

/-- A message assembled from a preamble, parts and an epilogue splits back into them, read with
any chunking and no limits: when every header name is not empty and holds no colon, no header
line holds a line end, and each delimiter occurs first where it was written, reading the
preamble to its end gives the preamble; moving through the parts gives each part, numbered from
zero, with its headers read as ISO-8859-1 and its body; a last move gives no part; and the
stream after the message is the epilogue. -/
theorem splitting_inverts_assembly {ρ : Type} [ByteReader ρ] (B P E : List UInt8)
    (parts : List (List (List UInt8 × List UInt8) × List UInt8)) (hne : parts ≠ [])
    (hfields : ∀ p ∈ parts, ∀ h ∈ p.1,
      h.1 ≠ [] ∧ (58 : UInt8) ∉ h.1 ∧ ¬[13, 10] <:+: h.1 ++ [58] ++ h.2)
    (hclosing : (Boundary.closing ⟨B⟩).find (Boundary.assemble ⟨B⟩ P parts E) =
      some ((Boundary.assemble ⟨B⟩ P parts E).length - E.length -
        (Boundary.closing ⟨B⟩).length))
    (hopening :
      (Boundary.opening ⟨B⟩).find (P ++ (Boundary.opening ⟨B⟩).bytes) = some P.length)
    (hsep : ∀ t ∈ (parts.map fun p => Boundary.partText p.1 p.2).dropLast,
      (Boundary.interPart ⟨B⟩).find (t ++ (Boundary.interPart ⟨B⟩).bytes) = some t.length)
    (hlast : ∀ t ∈ (parts.map fun p => Boundary.partText p.1 p.2).getLast?,
      (Boundary.interPart ⟨B⟩).find t = none)
    {src : ρ} (hsrc : Yields src (Boundary.assemble ⟨B⟩ P parts E)) :
    ((Message.new src B).calls (.preamble none :: Call.throughParts parts.length)).1 =
        .bytes (.ok P) :: Reply.throughParts 0 (parts.map fun p => (Headers.ofFields p.1, p.2)) ∧
      ∃ q, ((Message.new src B).calls
          (.preamble none :: Call.throughParts parts.length)).2.intoEpilogue = .ok q ∧
        Yields q E := by
  obtain ⟨Z, hZ, h⟩ := hsrc
  have hlayout := Boundary.layout_assemble ⟨B⟩ P E parts hne hclosing hopening hsep hlast
  obtain ⟨heq, hmir⟩ := calls_mirrors hZ (.preamble none :: Call.throughParts parts.length)
    (mirrors_start h ⟨B⟩ Limits.unlimited)
  obtain ⟨q, hq, hover⟩ := intoEpilogue_mirrors hZ hmir
    (Cursor.calls_unpoisoned _ (by simp [Cursor.start]))
  have hE :
      ((Boundary.closing ⟨B⟩).after (Boundary.assemble ⟨B⟩ P parts E)).getD [] = E := by
    simpa only [Boundary.layout_eq] using congrArg Layout.epilogue hlayout
  rw [hE] at hover
  refine ⟨heq.trans ?_, q, hq, _, Pushback.streams_over hZ, hover⟩
  · -- the cursor over the pieces reads the preamble, then each part's block
    have hparts := Cursor.calls_throughParts
      (parts.map fun p => (Boundary.partText p.1 p.2, Headers.ofFields p.1, p.2))
      ⟨.preamble [], parts.map fun p => Boundary.partText p.1 p.2, 0⟩
      (by
        simp only [List.mem_map]
        rintro _ ⟨p, hp, rfl⟩
        exact HeaderBlock.ofBlockBytes_partText p.2 (hfields p hp))
      (by simp) (by simp) (by simp)
    rw [hlayout]
    simp only [List.length_map, List.map_map, Function.comp_def] at hparts
    simp [Cursor.calls, Cursor.call, Cursor.start, Cursor.readFrom, hparts]

/-- One part with the header `n:v` and the body `b`, the empty token, no preamble and no
epilogue, read two bytes at a time. -/
theorem splitting_inverts_assembly_one_part :
    let parts : List (List (List UInt8 × List UInt8) × List UInt8) := [([([110], [118])], [98])]
    let src : Source := { data := Boundary.assemble ⟨[]⟩ [] parts [], chunk := some 2 }
    ((Message.new src []).calls (.preamble none :: Call.throughParts parts.length)).1 =
        .bytes (.ok []) :: Reply.throughParts 0 (parts.map fun p => (Headers.ofFields p.1, p.2)) ∧
      ∃ q, ((Message.new src []).calls
          (.preamble none :: Call.throughParts parts.length)).2.intoEpilogue = .ok q ∧
        Yields q [] := by
  intro parts src
  exact splitting_inverts_assembly [] [] [] parts (by simp [parts]) (by decide)
    (by rw [Delimiter.find_eq_firstMatch]; decide) (by rw [Delimiter.find_eq_firstMatch]; decide)
    (by simp [parts]) (by
      intro t ht
      simp only [parts, List.map_cons, List.map_nil, List.getLast?_singleton,
        Option.mem_def, Option.some.injEq] at ht
      subst ht
      rw [Delimiter.find_eq_firstMatch]
      decide)
    (Source.yields src rfl)

end Message

end MimeMultipart
