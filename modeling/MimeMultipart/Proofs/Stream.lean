import MimeMultipart.Stream.Source
import MimeMultipart.Stream.Pushback
/-!
# What a stream delivers

A reader is described by the bytes it will still deliver. `Streams Y` says that `Y` is such a
description: whenever `Y s xs`, each request to `s` for `n > 0` bytes brings a first piece of
`xs` of at most `n` bytes, not empty while bytes are left, never a failure, and `Y` describes
what follows. `Yields s xs` says that some description gives `xs` to `s`: the reader delivers
exactly `xs`, whatever sizes its pieces have, then the end.

Loops of requests then read the description off (`Streams.readUpTo`, `Streams.readToEnd`), a
source that does not fail yields its data (`Source.yields`), and a pushback yields its pending
bytes before its inner stream (`Pushback.streams_over`), also after `unread` and `atEnd`.
-/

namespace MimeMultipart

section Streams

variable {σ : Type} [ByteReader σ]

/-- `Y` describes what readers deliver: the bound covers the bytes left, and each request for
`n > 0` bytes brings a first piece of them, of at most `n` bytes and not empty while any are left,
after which `Y` describes the rest. -/
structure Streams (Y : σ → List UInt8 → Prop) : Prop where
  bound : ∀ {s xs}, Y s xs → xs.length ≤ ByteReader.bound s
  read : ∀ {s xs n}, Y s xs → 0 < n → ∃ bs s', ByteReader.read s n = (.bytes bs, s') ∧
    bs.length ≤ n ∧ bs <+: xs ∧ (xs ≠ [] → bs ≠ []) ∧ Y s' (xs.drop bs.length)

/-- The reader `s` delivers exactly `xs`, in pieces of any sizes, and then the end. -/
def Yields (s : σ) (xs : List UInt8) : Prop := ∃ Y : σ → List UInt8 → Prop, Streams Y ∧ Y s xs

/-- `s` is what a reader with nothing left becomes when it answers the end. -/
def AnsweredEnd (Y : σ → List UInt8 → Prop) (s : σ) : Prop :=
  ∃ t n, Y t [] ∧ 0 < n ∧ ByteReader.read t n = (.bytes [], s)

variable {Y : σ → List UInt8 → Prop}

theorem yields_streams : Streams (Yields (σ := σ)) where
  bound := fun ⟨_, hY, h⟩ => hY.bound h
  read := fun ⟨Y, hY, h⟩ hn => by
    obtain ⟨bs, s', hread, hlen, hpre, hne, h'⟩ := hY.read h hn
    exact ⟨bs, s', hread, hlen, hpre, hne, Y, hY, h'⟩

theorem Streams.gatherFrom (hY : Streams Y) : ∀ (want : Nat) (s : σ) (xs acc : List UInt8),
    Y s xs → ∃ s', ByteReader.gatherFrom s want acc =
      ⟨acc.reverse ++ xs.take want, if want ≤ xs.length then .filled else .ended, s'⟩ ∧
      Y s' (xs.drop want) ∧ (xs.length < want → AnsweredEnd Y s') := by
  intro want
  induction want using Nat.strongRecOn with
  | ind want ih =>
    intro s xs acc h
    rw [ByteReader.gatherFrom.eq_def]
    by_cases hw : want = 0
    · subst hw
      exact ⟨s, by simp, by simpa using h, by omega⟩
    · rw [if_neg hw]
      obtain ⟨bs, s', hread, hlen, hpre, hne, h'⟩ := hY.read h (Nat.pos_of_ne_zero hw)
      rw [hread]
      cases bs with
      | nil =>
        have hxs : xs = [] := Classical.byContradiction fun hxs => hne hxs rfl
        subst hxs
        exact ⟨s', by simp; omega, by simpa using h', fun _ => ⟨s, want, h, by omega, hread⟩⟩
      | cons b bs =>
        -- the piece is the first `bs.length + 1` bytes; the loop goes on from `s'`
        simp only [List.length_cons] at hlen h'
        have hkx : bs.length + 1 ≤ xs.length := by simpa using hpre.length_le
        have hpiece : xs.take (bs.length + 1) = b :: bs := by
          simpa using (List.prefix_iff_eq_take.1 hpre).symm
        obtain ⟨s'', hg, hrest, hend⟩ :=
          ih (want - (bs.length + 1)) (by omega) s' _ (List.reverseAux (b :: bs) acc) h'
        have hdata : (List.reverseAux (b :: bs) acc).reverse ++
            (xs.drop (bs.length + 1)).take (want - (bs.length + 1)) = acc.reverse ++ xs.take want := by
          rw [List.reverseAux_eq, List.reverse_append, List.reverse_reverse, List.append_assoc,
            ← hpiece, ← List.take_add, Nat.add_sub_of_le (by omega)]
        have hending : (if want - (bs.length + 1) ≤ (xs.drop (bs.length + 1)).length
            then Ending.filled else .ended) = if want ≤ xs.length then .filled else .ended := by
          simp only [List.length_drop]
          by_cases hle : want ≤ xs.length
          · rw [if_pos (by omega), if_pos hle]
          · rw [if_neg (by omega), if_neg hle]
        refine ⟨s'', ?_, ?_, fun hlt => hend (by simp; omega)⟩
        · simp only
          rw [hg, hdata, hending]
        · rwa [List.drop_drop, Nat.add_sub_of_le (by omega)] at hrest

/-- A loop of `n` requests reads the first `n` bytes, and ends on the end only when fewer
were left. -/
theorem Streams.readUpTo (hY : Streams Y) {s : σ} {xs : List UInt8} (h : Y s xs) (n : Nat) :
    ∃ s', ByteReader.readUpTo s n =
      ⟨xs.take n, if n ≤ xs.length then .filled else .ended, s'⟩ ∧
      Y s' (xs.drop n) ∧ (xs.length < n → AnsweredEnd Y s') := by
  simpa [ByteReader.readUpTo] using hY.gatherFrom n s xs [] h

theorem Streams.readToEnd (hY : Streams Y) {s : σ} {xs : List UInt8} (h : Y s xs) :
    ∃ s', ByteReader.readToEnd s = ⟨xs, .ended, s'⟩ ∧ Y s' [] ∧ AnsweredEnd Y s' := by
  have hb := hY.bound h
  obtain ⟨s', hg, hrest, hend⟩ := hY.readUpTo h (ByteReader.bound s + 1)
  rw [List.drop_eq_nil_of_le (by omega)] at hrest
  refine ⟨s', ?_, hrest, hend (by omega)⟩
  rw [ByteReader.readToEnd, hg, List.take_of_length_le (by omega), if_neg (by omega)]

end Streams

/-! ## Sources -/

namespace Source

/-- A source that does not fail delivers the bytes it holds, whatever its pieces. -/
theorem streams : Streams fun (s : Source) xs => s.data = xs ∧ s.fails = false where
  bound := by
    rintro s xs ⟨rfl, -⟩
    exact Nat.le_of_eq (bound_eq s).symm
  read := by
    rintro s xs n ⟨rfl, hfails⟩ hn
    have hpiece : 0 < s.piece n ∧ s.piece n ≤ n := by
      unfold piece
      split <;> omega
    cases hdata : s.data with
    | nil =>
      refine ⟨[], s, ?_, by simp, by simp, by simp, by simp [hdata], hfails⟩
      simp [ByteReader.read, read, hdata, hfails, Nat.pos_iff_ne_zero.1 hn]
    | cons x rest =>
      have hn0 : n ≠ 0 := Nat.pos_iff_ne_zero.1 hn
      have hread : ByteReader.read s n = (.bytes ((x :: rest).take (s.piece n)), (s.read n).2) := by
        simp [ByteReader.read, read, hdata, hn0]
      have hrest : (s.read n).2.data = (x :: rest).drop (s.piece n) ∧ (s.read n).2.fails = false := by
        simp [read, hdata, hn0, hfails]
      refine ⟨_, _, hread, ?_, List.take_prefix _ _,
        by simp [Nat.pos_iff_ne_zero.1 hpiece.1], ?_, hrest.2⟩
      · simp only [List.length_take]
        omega
      · rw [hrest.1, List.length_take]
        by_cases hle : s.piece n ≤ (x :: rest).length
        · rw [Nat.min_eq_left hle]
        · rw [Nat.min_eq_right (by omega), List.drop_length, List.drop_eq_nil_of_le (by omega)]

theorem yields (s : Source) (h : s.fails = false) : Yields s s.data := ⟨_, streams, rfl, h⟩

end Source

/-! ## Pushback -/

namespace Pushback

variable {σ : Type} {Z : σ → List UInt8 → Prop}

/-- The pushback `p` delivers `xs`: its pending bytes, then what `Z` says of its inner stream. -/
def Over (Z : σ → List UInt8 → Prop) (p : Pushback σ) (xs : List UInt8) : Prop :=
  ∃ ys, Z p.inner ys ∧ xs = p.pending.items ++ ys

theorem over_unread {p : Pushback σ} {xs : List UInt8} (h : Over Z p xs) (bs : List UInt8) :
    Over Z (p.unread bs) (bs ++ xs) := by
  obtain ⟨ys, hys, rfl⟩ := h
  exact ⟨ys, hys, by simp⟩

variable [ByteReader σ]

/-- Pending bytes are read before the inner stream: a read takes a first piece of the front
slice while bytes are pending, and asks the inner stream once none are. -/
theorem streams_over (hZ : Streams Z) : Streams (Over Z) where
  bound := by
    rintro p xs ⟨ys, hys, rfl⟩
    have := hZ.bound hys
    show _ ≤ p.pending.items.length + ByteReader.bound p.inner
    simp only [List.length_append]
    omega
  read := by
    rintro p xs n ⟨ys, hys, rfl⟩ hn
    by_cases hp : p.pending.items = []
    · obtain ⟨bs, s', hread, hlen, hpre, hne, h'⟩ := hZ.read hys hn
      refine ⟨bs, { p with inner := s' }, ?_, hlen, by simpa [hp] using hpre,
        by simpa [hp] using hne, _, h', by simp [hp]⟩
      rw [read_of_nil (Nat.pos_iff_ne_zero.1 hn) hp, hread]
    · -- a first piece of the front slice, which is not empty
      have hfront := List.length_pos_iff.2 (ByteDeque.frontSlice_ne_nil hp)
      have hkl : min p.pending.frontSlice.length n ≤ p.pending.items.length :=
        Nat.le_trans (Nat.min_le_left _ _) (ByteDeque.frontSlice_prefix _).length_le
      refine ⟨_, _, read_of_ne_nil (Nat.pos_iff_ne_zero.1 hn) hp,
        by simp only [List.length_take]; omega, (List.take_prefix _ _).trans (List.prefix_append _ _),
        fun _ => by simp only [ne_eq, List.take_eq_nil_iff, hp, or_false]; omega, ys, hys, ?_⟩
      rw [List.length_take, Nat.min_eq_left hkl, List.drop_append_of_le_length hkl]
      rfl

/-- Looking ahead answers whether bytes are left and keeps them all. -/
theorem atEnd_over (hZ : Streams Z) {p : Pushback σ} {xs : List UInt8} (h : Over Z p xs) :
    ∃ p', p.atEnd = (.ok xs.isEmpty, p') ∧ Over Z p' xs := by
  obtain ⟨ys, hys, rfl⟩ := h
  cases hp : p.pending.items with
  | cons x rest => exact ⟨p, by simp [atEnd, hp], ys, hys, by rw [hp]⟩
  | nil =>
    obtain ⟨bs, s', hread, hlen, hpre, hne, h'⟩ := hZ.read hys Nat.one_pos
    cases bs with
    | nil =>
      have hys0 : ys = [] := Classical.byContradiction fun hne' => hne hne' rfl
      subst hys0
      exact ⟨{ p with inner := s' }, by simp [atEnd, hp, hread], [], by simpa using h', by simp [hp]⟩
    | cons b bs =>
      have hb : bs = [] := List.eq_nil_of_length_eq_zero (by simp only [List.length_cons] at hlen; omega)
      subst hb
      obtain ⟨t, rfl⟩ := hpre
      -- the probed byte is pushed back in front of nothing
      exact ⟨{ pending := p.pending.pushFront b, inner := s' }, by simp [atEnd, hp, hread], t,
        by simpa using h', by simp [hp]⟩

end Pushback

end MimeMultipart
