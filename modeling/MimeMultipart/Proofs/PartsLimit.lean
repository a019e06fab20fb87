import MimeMultipart.Proofs.Splitting
/-!
# The parts limit

With `max_parts` set to `N` and no other limit, a message hands out the first `N` parts of its
layout and no more. The move that would take part `N` answers the parts limit, before the part's
header block is read, and every later move answers no part; a message with at most `N` parts
reads as it does without the limit. Either way the count of parts taken ends at the smaller of
the two, and the message still hands on its epilogue.

`limitedMove N segs i` says what the move numbered `i` answers, on the part segments `segs` of
the layout alone: it reads the header block of segment `i` only while `i < N`.

    (m.calls (List.replicate k .next)).1 = (List.range k).map (.part ∘ limitedMove N segs)
                                                                 (parts_limit_enforced)

The cursor over the layout moves that way (`Cursor.calls_next_limited`, by induction on the
moves), and the message follows the cursor for any limits (`Message.calls_mirrors`).
-/

namespace MimeMultipart

/-! ## The header block reads only the header limits -/

namespace HeaderBlock

theorem headersOf_congr {L L' : Limits} (hsize : L.maxHeaderSize = L'.maxHeaderSize)
    (hcount : L.maxHeaders = L'.maxHeaders) (lines : List (List UInt8)) (hs : Headers) :
    headersOf L lines hs = headersOf L' lines hs := by
  induction lines generalizing hs with
  | nil => rfl
  | cons line lines ih => simp only [headersOf, hsize, hcount, ih]

end HeaderBlock

/-- Limits that agree on the header limits read a header block alike. -/
theorem Headers.ofBlockBytes_congr {L K : Limits} (hsize : L.maxHeaderSize = K.maxHeaderSize)
    (hcount : L.maxHeaders = K.maxHeaders) (s : List UInt8) :
    Headers.ofBlockBytes L s = Headers.ofBlockBytes K s := by
  unfold Headers.ofBlockBytes
  simp only [HeaderBlock.headersOf_congr hsize hcount]

/-! ## The moves under the limit -/

/-- What the move numbered `i` through the part segments `segs` answers when at most `N` parts
may be taken: while `i < N`, the part of segment `i`, numbered `i`, with the headers its block
reads to; at the first segment past the limit, the parts limit, the segment unread; after the
last segment, or past the limit, no part. -/
def limitedMove (N : Nat) (segs : List (List UInt8)) (i : Nat) : Except Failure (Option Part) :=
  match segs[i]? with
  | none => .ok none
  | some s =>
    if i < N then (Headers.ofBlockBytes Limits.unlimited s).map fun r => some ⟨i, r.1⟩
    else if i = N then .error (.partsLimit N)
    else .ok none

section Moves

variable {N : Nat} {segs : List (List UInt8)}

theorem limitedMove_past {i : Nat} (h : segs.length ≤ i ∨ N < i) :
    limitedMove N segs i = .ok none := by
  unfold limitedMove
  rcases h with h | h
  · rw [List.getElem?_eq_none h]
  · split
    · rfl
    · rw [if_neg (by omega), if_neg (by omega)]

theorem map_limitedMove_past {j : Nat} (h : segs.length ≤ j ∨ N < j) (k : Nat) :
    (List.range' j k).map (fun i => Reply.part (limitedMove N segs i)) =
      List.replicate k (.part (.ok none)) := by
  refine List.eq_replicate_iff.2 ⟨by simp, fun r hr => ?_⟩
  obtain ⟨i, hi, rfl⟩ := List.mem_map.1 hr
  rw [List.mem_range'_1] at hi
  rw [limitedMove_past (by omega)]

end Moves

namespace Cursor

/-- Once no part follows, every move gives no part and changes nothing. -/
theorem calls_next_exhausted (L : Limits) {c : Cursor} (hc : c.stage = .exhausted) (k : Nat) :
    c.calls L (List.replicate k .next) = (List.replicate k (.part (.ok none)), c) := by
  induction k with
  | zero => rfl
  | succ k ih =>
    have hnext : c.next L = (.ok none, c) := by simp [next, advance, hc]
    simp only [List.replicate_succ, calls, call, hnext, ih]

theorem calls_next_succ {L : Limits} {c c' : Cursor} {r : Except Failure (Option Part)}
    (h : c.next L = (r, c')) (k : Nat) :
    c.calls L (List.replicate (k + 1) .next) =
      (.part r :: (c'.calls L (List.replicate k .next)).1,
        (c'.calls L (List.replicate k .next)).2) := by
  simp only [List.replicate_succ, calls, call, h]

/-- Moving `k` times from a cursor that has taken `j ≤ N` parts and stands before segment `j`
answers `limitedMove` for the moves numbered `j` to `j + k - 1`, takes parts up to the smaller
of the number of segments and `N`, and is never poisoned. The induction is on the moves; the
cursor takes a part while segments are left below the limit, and is exhausted from then on. -/
theorem calls_next_limited (N : Nat) (segs : List (List UInt8)) :
    ∀ (k : Nat) (c : Cursor), c.stage ≠ .exhausted → c.stage ≠ .poisoned →
      c.ahead = segs.drop c.yielded → c.yielded ≤ segs.length → c.yielded ≤ N →
      (c.calls { maxParts := some N } (List.replicate k .next)).1 =
          (List.range' c.yielded k).map (fun i => .part (limitedMove N segs i)) ∧
        (c.calls { maxParts := some N } (List.replicate k .next)).2.yielded =
          min (c.yielded + k) (min segs.length N) ∧
        (c.calls { maxParts := some N } (List.replicate k .next)).2.stage ≠ .poisoned
  | 0, c, _, hp, _, hlen, hN => ⟨rfl, by simp only [List.replicate_zero, calls]; omega, hp⟩
  | k + 1, c, hx, hp, hahead, hlen, hN => by
    have hexh := calls_next_exhausted { maxParts := some N } (c := { c with stage := .exhausted })
      rfl k
    rw [List.range'_succ, List.map_cons]
    cases hseg : segs[c.yielded]? with
    | none =>
      -- no segment is left: no part, and none from then on
      have hend : segs.length ≤ c.yielded := List.getElem?_eq_none_iff.1 hseg
      have hnext : c.next { maxParts := some N } = (.ok none, { c with stage := .exhausted }) := by
        simp [next, advance_eq_enter hx hp, enter, hahead, List.drop_eq_nil_of_le hend]
      rw [calls_next_succ hnext, hexh, map_limitedMove_past (Or.inl (by omega)),
        limitedMove_past (Or.inl hend)]
      exact ⟨rfl, by simp only; omega, by simp⟩
    | some s =>
      obtain ⟨hlt, hget⟩ := List.getElem?_eq_some_iff.1 hseg
      have hdrop : c.ahead = s :: segs.drop (c.yielded + 1) := by
        rw [hahead, List.drop_eq_getElem_cons hlt, hget]
      by_cases hbelow : c.yielded < N
      · -- below the limit the part is taken, its header block read as without limits
        obtain ⟨hs, body, hblock⟩ := ofBlockBytes_unlimited s
        have hblock' : Headers.ofBlockBytes { maxParts := some N } s = .ok (hs, body) :=
          (Headers.ofBlockBytes_congr (L := { maxParts := some N }) (K := Limits.unlimited)
            rfl rfl s).trans hblock
        have hnext : c.next { maxParts := some N } =
            (.ok (some ⟨c.yielded, hs⟩),
              ⟨.body body, segs.drop (c.yielded + 1), c.yielded + 1⟩) := by
          simp [next, advance_eq_enter hx hp, enter, hdrop, Limits.allowsPart, hbelow, hblock']
        have hmove : limitedMove N segs c.yielded = .ok (some ⟨c.yielded, hs⟩) := by
          simp [limitedMove, hseg, hbelow, hblock, Except.map]
        obtain ⟨hreplies, hyielded, hpoison⟩ :=
          calls_next_limited N segs k
            ⟨.body body, segs.drop (c.yielded + 1), c.yielded + 1⟩
            (by simp) (by simp) rfl (by simp only; omega) (by simp only; omega)
        rw [calls_next_succ hnext, hmove]
        refine ⟨by rw [hreplies], by rw [hyielded]; simp only; omega, hpoison⟩
      · -- at the limit the move fails before the block is read, and the cursor is exhausted
        have hat : c.yielded = N := by omega
        have hnext : c.next { maxParts := some N } =
            (.error (.partsLimit N), { c with stage := .exhausted }) := by
          simp [next, advance_eq_enter hx hp, enter, hdrop, Limits.allowsPart, hat]
        have hmove : limitedMove N segs c.yielded = .error (.partsLimit N) := by
          rw [hat] at hseg ⊢
          simp [limitedMove, hseg]
        rw [calls_next_succ hnext, hexh, map_limitedMove_past (Or.inr (by omega)), hmove]
        exact ⟨rfl, by simp only; omega, by simp⟩

end Cursor

/-- A message with `max_parts` set to `N ≥ 1` and no other limit opens, whatever the token, and
over a source that delivers `M` in pieces of any sizes, `k` moves to the next part answer as
`limitedMove` says on the part segments of `M`: the parts `0` to `min p N - 1` of the layout,
numbered in order, with the headers their blocks read to; if `p > N`, the parts limit `N` at move
`N`, before that part's header block is read, and no part after it; if `p ≤ N`, no part after the
last, and never the parts limit. The parts taken end at `min p N`, and the stream after the
message is still the epilogue, the bytes after the leftmost closing delimiter. -/
theorem parts_limit_enforced {ρ : Type} [ByteReader ρ] {M : List UInt8} {src : ρ}
    (hsrc : Yields src M) (B : List UInt8) {N : Nat} (hN : 0 < N) (k : Nat) :
    ∃ m, Message.withLimits src B { maxParts := some N } = .ok m ∧
      (m.calls (List.replicate k .next)).1 =
        (List.range k).map
          (fun i => .part (limitedMove N (Boundary.layout ⟨B⟩ M).segments i)) ∧
      (m.calls (List.replicate k .next)).2.yielded =
        min k (min (Boundary.layout ⟨B⟩ M).segments.length N) ∧
      ∃ e, (m.calls (List.replicate k .next)).2.intoEpilogue = .ok e ∧
        Yields e (Boundary.layout ⟨B⟩ M).epilogue := by
  obtain ⟨Z, hZ, h⟩ := hsrc
  have hvalid : ({ maxParts := some N } : Limits).validate = .ok () :=
    (Limits.validate_eq_ok_iff _).2 ⟨by simp; omega, by simp, by simp⟩
  refine ⟨Message.ofBoundary src ⟨B⟩ { maxParts := some N },
    by simp [Message.withLimits, hvalid, Except.map], ?_⟩
  -- the message follows the cursor over its layout, which moves as `limitedMove` says
  obtain ⟨heq, hmir⟩ := Message.calls_mirrors hZ (List.replicate k .next)
    (Message.mirrors_start h ⟨B⟩ { maxParts := some N })
  obtain ⟨hreplies, hyielded, hunpoisoned⟩ :=
    Cursor.calls_next_limited N (Boundary.layout ⟨B⟩ M).segments k
      (Cursor.start (Boundary.layout ⟨B⟩ M)) (by simp [Cursor.start]) (by simp [Cursor.start])
      (by simp [Cursor.start]) (by simp [Cursor.start]) (by simp [Cursor.start])
  obtain ⟨e, he, hover⟩ := Message.intoEpilogue_mirrors hZ hmir hunpoisoned
  refine ⟨heq.trans ?_, hmir.2.2.1.trans ?_, e, he, ?_⟩
  · simpa [Cursor.start, List.range_eq_range'] using hreplies
  · simpa [Cursor.start] using hyielded
  · rw [Boundary.layout_eq]
    exact ⟨_, Pushback.streams_over hZ, hover⟩

/-- Two parts under a limit of one, read three bytes at a time: three moves. -/
theorem parts_limit_enforced_two_parts :
    let msg : List UInt8 := [45, 45, 13, 10, 13, 10, 49, 13, 10, 45, 45, 13, 10, 13, 10, 50,
      13, 10, 45, 45, 45, 45]
    let src : Source := { data := msg, chunk := some 3 }
    Yields src msg ∧ 0 < 1 ∧
      ∃ m, Message.withLimits src [] { maxParts := some 1 } = .ok m ∧
        (m.calls (List.replicate 3 .next)).1 =
          (List.range 3).map
            (fun i => .part (limitedMove 1 (Boundary.layout ⟨[]⟩ msg).segments i)) ∧
        (m.calls (List.replicate 3 .next)).2.yielded =
          min 3 (min (Boundary.layout ⟨[]⟩ msg).segments.length 1) ∧
        ∃ e, (m.calls (List.replicate 3 .next)).2.intoEpilogue = .ok e ∧
          Yields e (Boundary.layout ⟨[]⟩ msg).epilogue := by
  intro msg src
  exact ⟨Source.yields src rfl, by decide,
    parts_limit_enforced (Source.yields src rfl) [] (by decide) 3⟩

end MimeMultipart
