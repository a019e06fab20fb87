import MimeMultipart.Proofs.Leftmost
import MimeMultipart.Proofs.Stream
import MimeMultipart.Scanner
/-!
# A scanner over a stream

A scanner of the delimiter `d` over a stream `S` delivers `d.before S`, the bytes before the
leftmost occurrence of `d`, and leaves its source at `d.after S`, the bytes after it. The proof
carries one invariant, `Tracks Z sc U O`: the scanner still delivers `U`, and its source then
delivers `O`, where `Z` describes the stream under the source. Each operation keeps it
(`read_serves`, `drain_tracks`, `intoRemaining_tracks`), so a scanner is itself a stream
(`streams_tracks`) and scanners stack.

## Main statements

* `read_serves`: a read brings the next bytes before the delimiter, at least one while any are
  left, and none only once the scanner is finished.
* `reach_progress`: along every run of reads, single-byte reads and drains, the bytes handed out
  are the first bytes before the delimiter.
* `run_stops_at_delimiter`: the contract of a scanner, in every state such a run reaches.
* `retry_after_failure_passes_delimiter`: over a source that fails, a read made again after the
  failure can hand out the delimiter's own bytes.
-/

namespace MimeMultipart

namespace Scanner

variable {σ : Type} {Z : σ → List UInt8 → Prop}

/-- A scanner that has not seen its delimiter: its window holds no occurrence and at most
`2 * |d|` bytes, and the window followed by the stream of its source is a text of which the
scanner delivers `U`, what comes before the leftmost occurrence, with `O` after it. -/
structure Searching (Z : σ → List UInt8 → Prop) (sc : Scanner σ) (U : List UInt8)
    (O : Option (List UInt8)) : Prop where
  none_in_window : sc.delimiter.find sc.window = none
  window_le : sc.window.length ≤ 2 * sc.delimiter.length
  stream : ∃ T, Pushback.Over Z sc.source T ∧ sc.delimiter.before (sc.window ++ T) = U ∧
    sc.delimiter.after (sc.window ++ T) = O

/-- The scanner `sc` still delivers `U`, and once it has, its source delivers `O`, the stream
after the delimiter, or nothing when the delimiter never came; `Z` describes the stream under the
source. -/
def Tracks (Z : σ → List UInt8 → Prop) (sc : Scanner σ) (U : List UInt8)
    (O : Option (List UInt8)) : Prop :=
  match sc.phase with
  | .fresh => Searching Z sc U O
  | .scanning => Searching Z sc U O
  | .drained => sc.window = U ∧ O = none ∧ Pushback.Over Z sc.source []
  | .located => sc.window = U ∧ ∃ R, O = some R ∧ Pushback.Over Z sc.source R
  | .closed found => U = [] ∧ found = O.isSome ∧ Pushback.Over Z sc.source (O.getD [])

/-- A scanner over a stream `S` delivers what comes before the leftmost delimiter. -/
theorem tracks_withSource {p : Pushback σ} {S : List UInt8} (h : Pushback.Over Z p S)
    (d : Delimiter) : Tracks Z (withSource p d) (d.before S) (d.after S) :=
  ⟨rfl, by simp [withSource], S, h, rfl, rfl⟩

/-- Once the delimiter or the end was seen, the window holds exactly what is left to deliver. -/
theorem tracks_setWindow {sc : Scanner σ} {U : List UInt8} {O : Option (List UInt8)}
    (h : Tracks Z sc U O) (hfinal : sc.phase = .located ∨ sc.phase = .drained)
    (w : List UInt8) : Tracks Z { sc with window := w } w O := by
  rcases hfinal with hph | hph <;> simp only [Tracks, hph] at h ⊢ <;> exact ⟨by simp, h.2⟩

theorem tracks_close {sc : Scanner σ} {O : Option (List UInt8)}
    (h : Tracks Z sc [] O) (hfinal : sc.phase = .located ∨ sc.phase = .drained) :
    Tracks Z sc.close [] O := by
  rcases hfinal with hph | hph
  · simp only [Tracks, hph] at h
    obtain ⟨-, R, rfl, hR⟩ := h
    exact ⟨rfl, by simp [found, hph], hR⟩
  · simp only [Tracks, hph] at h
    obtain ⟨-, rfl, hR⟩ := h
    exact ⟨rfl, by simp [found, hph], hR⟩

/-- The answer `r` to a request for `n` bytes, made to a scanner that still delivers `U`: the next
bytes of `U`, at least one while any are left, and a scanner that delivers the rest; an empty
answer leaves the scanner finished. -/
def Serves (Z : σ → List UInt8 → Prop) (n : Nat) (U : List UInt8) (O : Option (List UInt8))
    (r : Delivery × Scanner σ) : Prop :=
  ∃ bs, r.1 = .bytes bs ∧ bs.length ≤ n ∧ bs <+: U ∧ (U ≠ [] → bs ≠ []) ∧
    Tracks Z r.2 (U.drop bs.length) O ∧ (bs = [] → r.2.finished = true)

/-- Once the delimiter or the end was seen, a request is served from the window. -/
theorem deliver_final {sc : Scanner σ} {U : List UInt8} {O : Option (List UInt8)} {n : Nat}
    (h : Tracks Z sc U O) (hfinal : sc.phase = .located ∨ sc.phase = .drained) (hn : 0 < n) :
    Serves Z n U O (sc.deliver n) := by
  have hwin : sc.window = U := by
    rcases hfinal with hph | hph <;> simp only [Tracks, hph] at h <;> exact h.1
  have hdeliver : sc.deliver n = if sc.window.isEmpty then (.bytes [], sc.close)
      else sc.serve n sc.window.length := by
    rcases hfinal with hph | hph <;> simp [deliver, hph]
  rw [hdeliver]
  by_cases hempty : sc.window = []
  · rw [hwin] at hempty
    subst hempty
    simp only [hwin, List.isEmpty_nil, if_true]
    exact ⟨[], rfl, by simp, List.nil_prefix, by simp, tracks_close h hfinal, fun _ => rfl⟩
  · have hlast : (sc.phase == .located || sc.phase == .drained) = true := by
      rcases hfinal with hph | hph <;> simp [hph]
    simp only [List.isEmpty_eq_false_iff.2 hempty, Bool.false_eq_true, if_false, serve, hlast,
      Bool.and_true]
    refine ⟨sc.window.take (min n sc.window.length), rfl,
      by simp only [List.length_take]; omega, ?_, ?_, ?_, ?_⟩
    · rw [← hwin]; exact List.take_prefix _ _
    · intro _; simp [hempty]; omega
    · have hset := tracks_setWindow h hfinal (sc.window.drop (min n sc.window.length))
      rw [List.length_take, Nat.min_eq_left (Nat.min_le_right _ _), ← hwin]
      split
      · rename_i hdone
        rw [List.isEmpty_iff.1 hdone] at hset ⊢
        exact tracks_close hset (by simpa using hfinal)
      · exact hset
    · intro hnil
      simp [hempty] at hnil
      omega


theorem serve_of_scanning {sc : Scanner σ} (hph : sc.phase = .scanning) (n limit : Nat) :
    sc.serve n limit = (.bytes (sc.window.take (min n limit)),
      { sc with window := sc.window.drop (min n limit) }) := by
  have hlast : (sc.phase == .located || sc.phase == .drained) = false := by rw [hph]; rfl
  simp only [serve, hlast, Bool.and_false, Bool.false_eq_true, if_false]

/-- Before the delimiter was seen, a request is served from the searched window, all but its last
`|d|` bytes, at which no occurrence can start. -/
theorem deliver_scanning {sc : Scanner σ} {U : List UInt8} {O : Option (List UInt8)} {n : Nat}
    (h : Searching Z sc U O) (hph : sc.phase = .scanning)
    (hlong : sc.delimiter.length < sc.window.length) (hn : 0 < n) :
    Serves Z n U O (sc.deliver n) := by
  obtain ⟨hnone, hle, T, hT, hU, hO⟩ := h
  generalize hk : min n (sc.window.length - sc.delimiter.length) = k
  have hk1 : 0 < k := by omega
  have hkL : k + sc.delimiter.length ≤ sc.window.length := by omega
  have hdeliver : sc.deliver n = (.bytes (sc.window.take k), { sc with window := sc.window.drop k }) := by
    rw [deliver, hph]
    simp only
    rw [serve_of_scanning hph, hk, hph]
  rw [hdeliver]
  have hlen : (sc.window.take k).length = k := List.length_take_of_le (by omega)
  refine ⟨_, rfl, by omega, hU ▸ Delimiter.take_prefix_before hnone hkL, ?_, ?_, ?_⟩
  · intro _ hnil
    rw [← List.length_eq_zero_iff, hlen] at hnil
    omega
  · rw [hlen]
    show Tracks Z { sc with window := sc.window.drop k } _ O
    simp only [Tracks, hph]
    exact ⟨Delimiter.find_drop_of_none hnone _, by simp; omega, T, hT,
      by rw [Delimiter.before_drop hnone hkL, hU], by rw [Delimiter.after_drop hnone hkL, hO]⟩
  · intro hnil
    rw [← List.length_eq_zero_iff, hlen] at hnil
    omega

theorem found_of_tracks {sc : Scanner σ} {U : List UInt8} {O : Option (List UInt8)}
    (h : Tracks Z sc U O) (hfound : sc.found = true) : O.isSome = true := by
  unfold found at hfound
  split at hfound
  · rename_i hph
    simp only [Tracks, hph] at h
    obtain ⟨-, R, rfl, -⟩ := h
    rfl
  · rename_i hph
    simp only [Tracks, hph] at h
    exact h.2.1.symm
  · cases hfound

theorem finished_of_tracks {sc : Scanner σ} {U : List UInt8} {O : Option (List UInt8)}
    (h : Tracks Z sc U O) (hfin : sc.finished = true) : U = [] ∧ sc.found = O.isSome := by
  unfold finished at hfin
  split at hfin
  · rename_i found hph
    simp only [Tracks, hph] at h
    refine ⟨h.1, ?_⟩
    rw [← h.2.1]
    unfold Scanner.found
    rw [hph]
    cases found <;> rfl
  · cases hfin

/-- Whatever its phase, the scanner's source is a stream that `Z` describes. -/
theorem source_of_tracks {sc : Scanner σ} {U : List UInt8} {O : Option (List UInt8)}
    (h : Tracks Z sc U O) : ∃ V, Pushback.Over Z sc.source V := by
  unfold Tracks at h
  split at h
  · exact h.stream.imp fun _ hT => hT.1
  · exact h.stream.imp fun _ hT => hT.1
  · exact ⟨_, h.2.2⟩
  · obtain ⟨-, R, -, hR⟩ := h
    exact ⟨R, hR⟩
  · exact ⟨_, h.2.2⟩

theorem base_of_tracks {sc : Scanner σ} {U : List UInt8} {O : Option (List UInt8)}
    (h : Tracks Z sc U O) : ∃ V, Z sc.base V := by
  obtain ⟨V, ys, hys, -⟩ := source_of_tracks h
  exact ⟨ys, hys⟩

variable [ByteReader σ]

/-- What a top-up does once its reading stopped without a failure: search the window and its new
bytes, keeping the bytes after an occurrence for the source. -/
theorem refill_of_gathered {sc : Scanner σ} {data : List UInt8} {e : Ending} {rest : Pushback σ}
    (hg : ByteReader.readUpTo sc.source (2 * sc.delimiter.length - sc.window.length) =
      ⟨data, e, rest⟩) (he : e ≠ .failed) :
    sc.refill = match sc.delimiter.find (sc.window ++ data) with
      | some pos => (true, { sc with
          source := rest.unread ((sc.window ++ data).drop (pos + sc.delimiter.length)),
          window := (sc.window ++ data).take pos, phase := .located })
      | none => (true, { sc with
          source := rest, window := sc.window ++ data,
          phase := if e = .ended then .drained else .scanning }) := by
  unfold refill
  rw [hg]
  cases e with
  | failed => exact absurd rfl he
  | filled => rfl
  | ended => rfl

/-- Topping up a searched window finds the delimiter, meets the end of the stream, or fills the
window to `2 * |d|` bytes without an occurrence; it never fails over a stream that does not. -/
theorem refill_searching (hZ : Streams Z) {sc : Scanner σ} {U : List UInt8}
    {O : Option (List UInt8)} (h : Searching Z sc U O) :
    ∃ sc', sc.refill = (true, sc') ∧ Tracks Z sc' U O ∧
      (sc'.phase = .located ∨ sc'.phase = .drained ∨
        (sc'.phase = .scanning ∧ sc'.delimiter.length < sc'.window.length)) := by
  obtain ⟨hnone, hle, T, hT, hU, hO⟩ := h
  generalize hwant : 2 * sc.delimiter.length - sc.window.length = want
  obtain ⟨rest, hg, hrest, -⟩ := (Pushback.streams_over hZ).readUpTo hT want
  rw [← hwant] at hg
  have hpos := sc.delimiter.length_pos
  -- the window, topped up, followed by what the source still holds, is the same text
  have htext : sc.window ++ T = (sc.window ++ T.take want) ++ T.drop want := by simp
  rw [refill_of_gathered hg (by split <;> simp), hwant]
  cases hf : sc.delimiter.find (sc.window ++ T.take want) with
  | some pos =>
    refine ⟨_, rfl, ?_, Or.inl rfl⟩
    refine ⟨?_, _, ?_, Pushback.over_unread hrest _⟩
    · rw [← hU, htext, Delimiter.before_append_of_find hf]
    · rw [← hO, htext, Delimiter.after_append_of_find hf]
  | none =>
    by_cases hfull : want ≤ T.length
    · -- the window is full and holds no occurrence
      refine ⟨_, rfl, ?_, Or.inr (Or.inr ⟨by simp [hfull], ?_⟩)⟩
      · simp only [hfull, if_true, reduceCtorEq, if_false, Tracks]
        refine ⟨hf, ?_, _, hrest, by rw [← htext, hU], by rw [← htext, hO]⟩
        simp only [List.length_append, List.length_take]
        omega
      · simp only [List.length_append, List.length_take]
        omega
    · -- the stream ended inside the window
      have hall : T.take want = T := List.take_of_length_le (by omega)
      have hdrop : T.drop want = [] := List.drop_eq_nil_of_le (by omega)
      refine ⟨_, rfl, ?_, Or.inr (Or.inl (by simp [hfull]))⟩
      simp only [hfull, if_false, if_true, Tracks]
      rw [hdrop] at hrest
      rw [hall] at hf ⊢
      exact ⟨by rw [← hU, Delimiter.before_of_find_none hf], by rw [← hO,
        Delimiter.after_of_find_none hf], hrest⟩

theorem refillThenDeliver_searching (hZ : Streams Z) {sc : Scanner σ} {U : List UInt8}
    {O : Option (List UInt8)} {n : Nat} (h : Searching Z sc U O) (hn : 0 < n) :
    Serves Z n U O (sc.refillThenDeliver n) := by
  obtain ⟨sc', hrefill, htracks, hphase⟩ := refill_searching hZ h
  rw [refillThenDeliver, hrefill]
  rcases hphase with hph | hph | ⟨hph, hlong⟩
  · exact deliver_final htracks (Or.inl hph) hn
  · exact deliver_final htracks (Or.inr hph) hn
  · simp only [Tracks, hph] at htracks
    exact deliver_scanning htracks hph hlong hn

/-- Each request for `n > 0` bytes brings the next bytes before the delimiter, at least one while
any are left, and leaves the scanner tracking the rest; an empty answer finishes the scanner. -/
theorem read_serves (hZ : Streams Z) {sc : Scanner σ} {U : List UInt8} {O : Option (List UInt8)}
    {n : Nat} (h : Tracks Z sc U O) (hn : 0 < n) : Serves Z n U O (sc.read n) := by
  rw [read, if_neg (by omega)]
  cases hph : sc.phase with
  | fresh =>
    simp only [Tracks, hph] at h
    exact refillThenDeliver_searching hZ h hn
  | scanning =>
    simp only [Tracks, hph] at h
    simp only
    split
    · rename_i hlong
      exact deliver_scanning h hph hlong hn
    · exact refillThenDeliver_searching hZ h hn
  | drained => exact deliver_final h (Or.inr hph) hn
  | located => exact deliver_final h (Or.inl hph) hn
  | closed found =>
    have hU : U = [] := by simp only [Tracks, hph] at h; exact h.1
    subst hU
    exact ⟨[], rfl, by simp, List.nil_prefix, by simp, h, fun _ => by simp [finished, hph]⟩

/-- For each outcome `O`, tracking describes what scanners deliver. -/
theorem streams_tracks (hZ : Streams Z) (O : Option (List UInt8)) :
    Streams fun (sc : Scanner σ) U => Tracks Z sc U O where
  bound := by
    intro sc U h
    show U.length ≤ if sc.finished then 0 else sc.window.length + ByteReader.bound sc.source
    cases hph : sc.phase with
    | fresh | scanning =>
      simp only [Tracks, hph] at h
      obtain ⟨-, -, T, hT, hU, -⟩ := h
      have hb := (Pushback.streams_over hZ).bound hT
      have hle := Delimiter.length_before_le sc.delimiter (sc.window ++ T)
      rw [hU, List.length_append] at hle
      simp only [finished, hph, Bool.false_eq_true, if_false]
      omega
    | drained | located =>
      simp only [Tracks, hph] at h
      simp only [finished, hph, Bool.false_eq_true, if_false, ← h.1]
      omega
    | closed found =>
      simp only [Tracks, hph] at h
      simp [h.1]
  read := by
    intro sc U n h hn
    obtain ⟨bs, hbs, hlen, hpre, hne, htracks, -⟩ := read_serves hZ h hn
    exact ⟨bs, _, Prod.ext hbs rfl, hlen, hpre, hne, htracks⟩

theorem finished_of_answeredEnd (hZ : Streams Z) {O : Option (List UInt8)} {sc : Scanner σ}
    (h : AnsweredEnd (fun (sc : Scanner σ) U => Tracks Z sc U O) sc) : sc.finished = true := by
  obtain ⟨t, n, ht, hn, hread⟩ := h
  obtain ⟨bs, hbs, -, hpre, -, -, hfin⟩ := read_serves hZ ht hn
  have hread' : t.read n = (.bytes [], sc) := hread
  rw [hread'] at hbs hfin
  cases hbs
  exact hfin (List.prefix_nil.1 hpre)

/-- Draining counts what is left before the delimiter and finishes the scanner. -/
theorem drain_tracks (hZ : Streams Z) {sc : Scanner σ} {U : List UInt8}
    {O : Option (List UInt8)} (h : Tracks Z sc U O) :
    ∃ sc', sc.drain = (.ok U.length, sc') ∧ sc'.finished = true ∧ Tracks Z sc' [] O := by
  obtain ⟨sc', hg, htracks, hend⟩ := (streams_tracks hZ O).readToEnd h
  refine ⟨sc', ?_, finished_of_answeredEnd hZ hend, htracks⟩
  simp only [drain, hg, Gathered.bytes?]
  rfl

/-- The stream after a scanner is what follows the delimiter, or nothing when it never came. -/
theorem intoRemaining_tracks (hZ : Streams Z) {sc : Scanner σ} {U : List UInt8}
    {O : Option (List UInt8)} (h : Tracks Z sc U O) :
    ∃ p, sc.intoRemaining = .ok p ∧ Pushback.Over Z p (O.getD []) := by
  obtain ⟨sc', hdrain, hfin, htracks⟩ := drain_tracks hZ h
  refine ⟨sc'.source, by simp [intoRemaining, hdrain], ?_⟩
  cases hph : sc'.phase with
  | closed found =>
    simp only [Tracks, hph] at htracks
    exact htracks.2.2
  | _ => simp [finished, hph] at hfin

/-! ## Every run of reads, single-byte reads and drains -/

/-- The states a scanner reaches from `sc₀` by reads of any sizes, single-byte reads and drains,
with the bytes handed out on the way and the number of bytes consumed, drained ones included. -/
inductive Reach (sc₀ : Scanner σ) : Scanner σ → List UInt8 → Nat → Prop
  | start : Reach sc₀ sc₀ [] 0
  | read {sc sc' : Scanner σ} {D bs : List UInt8} {C n : Nat} :
      Reach sc₀ sc D C → sc.read n = (.bytes bs, sc') → Reach sc₀ sc' (D ++ bs) (C + bs.length)
  | readByte {sc sc' : Scanner σ} {D : List UInt8} {C : Nat} {b : Option UInt8} :
      Reach sc₀ sc D C → sc.readByte = (.ok b, sc') →
        Reach sc₀ sc' (D ++ b.toList) (C + b.toList.length)
  | drain {sc sc' : Scanner σ} {D : List UInt8} {C k : Nat} :
      Reach sc₀ sc D C → sc.drain = (.ok k, sc') → Reach sc₀ sc' D (C + k)

/-- What a run has done so far: it handed out the first bytes before the delimiter, unless a
drain consumed all of them, and the scanner tracks the rest. -/
structure Progress (Z : σ → List UInt8 → Prop) (d : Delimiter) (S : List UInt8)
    (sc : Scanner σ) (D : List UInt8) (C : Nat) : Prop where
  tracks : Tracks Z sc ((d.before S).drop C) (d.after S)
  handed : D <+: d.before S
  handed_le : D.length ≤ C
  consumed_le : C ≤ (d.before S).length
  drained : D.length < C → C = (d.before S).length

theorem Progress.read (hZ : Streams Z) {d : Delimiter} {S : List UInt8} {sc sc' : Scanner σ}
    {D bs : List UInt8} {C n : Nat} (h : Progress Z d S sc D C)
    (hread : sc.read n = (.bytes bs, sc')) : Progress Z d S sc' (D ++ bs) (C + bs.length) := by
  by_cases hn : n = 0
  · rw [Scanner.read, if_pos hn] at hread
    cases hread
    simpa using h
  obtain ⟨bs', hbs, -, hpre, hne, htracks, -⟩ := read_serves hZ h.tracks (Nat.pos_of_ne_zero hn)
  rw [hread] at hbs htracks
  cases hbs
  have hlen := hpre.length_le
  have hC := h.consumed_le
  simp only [List.length_drop] at hlen
  refine ⟨by rwa [List.drop_drop] at htracks, ?_, by simp [h.handed_le], by omega, ?_⟩
  · by_cases hnil : bs = []
    · simpa [hnil] using h.handed
    · -- nothing was drained, so the bytes handed out are exactly those consumed
      have hC : C < (d.before S).length := by
        refine Nat.lt_of_not_le fun hge => hnil ?_
        rw [List.drop_eq_nil_of_le hge] at hpre
        exact List.prefix_nil.1 hpre
      have hD : D.length = C := by
        have := h.handed_le
        have := h.drained
        omega
      have htake : D = (d.before S).take C := by
        rw [← hD]; exact List.prefix_iff_eq_take.1 h.handed
      rw [htake]
      calc (d.before S).take C ++ bs <+: (d.before S).take C ++ (d.before S).drop C :=
            (List.prefix_append_right_inj _).2 hpre
        _ = d.before S := List.take_append_drop _ _
  · intro hlt
    simp only [List.length_append] at hlt
    have hC := h.drained (by omega)
    subst hC
    rw [List.drop_length] at hpre
    simp [List.prefix_nil.1 hpre]

theorem Progress.readByte (hZ : Streams Z) {d : Delimiter} {S : List UInt8} {sc sc' : Scanner σ}
    {D : List UInt8} {C : Nat} {b : Option UInt8} (h : Progress Z d S sc D C)
    (hbyte : sc.readByte = (.ok b, sc')) :
    Progress Z d S sc' (D ++ b.toList) (C + b.toList.length) := by
  obtain ⟨bs, hbs, hlen, -, -, -, -⟩ := read_serves hZ h.tracks Nat.one_pos
  have hread : sc.read 1 = (.bytes b.toList, sc') := by
    rw [Scanner.readByte] at hbyte
    revert hbyte hbs hlen
    cases sc.read 1 with
    | mk r sc'' =>
      intro hbyte hbs hlen
      cases hbs
      cases bs with
      | nil => cases hbyte; rfl
      | cons x xs =>
        have : xs = [] := by simpa using hlen
        subst this
        cases hbyte
        rfl
  exact h.read hZ hread

theorem Progress.drain (hZ : Streams Z) {d : Delimiter} {S : List UInt8} {sc sc' : Scanner σ}
    {D : List UInt8} {C k : Nat} (h : Progress Z d S sc D C)
    (hdrain : sc.drain = (.ok k, sc')) : Progress Z d S sc' D (C + k) := by
  obtain ⟨sc'', hdrain', -, htracks⟩ := drain_tracks hZ h.tracks
  rw [hdrain] at hdrain'
  cases hdrain'
  have hC := h.consumed_le
  simp only [List.length_drop] at *
  refine ⟨?_, h.handed, by have := h.handed_le; omega, by omega, fun _ => by omega⟩
  rwa [List.drop_eq_nil_of_le (by omega)]

theorem reach_progress (hZ : Streams Z) {p : Pushback σ} {S : List UInt8}
    (hp : Pushback.Over Z p S) {d : Delimiter} {sc : Scanner σ} {D : List UInt8} {C : Nat}
    (h : Reach (withSource p d) sc D C) : Progress Z d S sc D C := by
  induction h with
  | start => exact ⟨tracks_withSource hp d, List.nil_prefix, Nat.le_refl 0, Nat.zero_le _,
      fun h => absurd h (by simp)⟩
  | read _ hread ih => exact ih.read hZ hread
  | readByte _ hbyte ih => exact ih.readByte hZ hbyte
  | drain _ hdrain ih => exact ih.drain hZ hdrain

/-- What a scanner of `d` over the stream `S` promises once it handed out the bytes `D` and
consumed `C` bytes, drained ones included: `D` is a prefix of the bytes before the leftmost
delimiter; a read brings the next of them, and none only once all were consumed, leaving the
scanner finished; a drain counts those not yet consumed; the delimiter is reported found only when
it occurs, and a finished scanner reports it exactly then; and the stream after the scanner is
what follows the delimiter, or nothing. -/
structure Honors (d : Delimiter) (S : List UInt8) (sc : Scanner σ) (D : List UInt8) (C : Nat) :
    Prop where
  handed : D <+: d.before S
  read : ∀ n, 0 < n → ∃ bs sc', sc.read n = (.bytes bs, sc') ∧ bs.length ≤ n ∧
    bs <+: (d.before S).drop C ∧ (bs = [] ↔ C = (d.before S).length) ∧
    (bs = [] → sc'.finished = true)
  drain : ∃ sc', sc.drain = (.ok ((d.before S).length - C), sc')
  found : sc.found = true → d.bytes <:+: S
  finished : sc.finished = true → C = (d.before S).length ∧ (sc.found = true ↔ d.bytes <:+: S)
  remaining : ∃ q, sc.intoRemaining = .ok q ∧ Yields q ((d.after S).getD [])

/-- A scanner over a stream that does not fail keeps its contract in every run of reads,
single-byte reads and drains: it hands out the bytes before the leftmost delimiter, in order,
and the stream after it is what follows the delimiter. -/
theorem run_stops_at_delimiter {d : Delimiter} {p : Pushback σ} {T : List UInt8}
    (hT : Yields p.inner T) {sc : Scanner σ} {D : List UInt8} {C : Nat}
    (h : Reach (withSource p d) sc D C) : Honors d (p.pending.items ++ T) sc D C := by
  obtain ⟨Z, hZ, hZT⟩ := hT
  have hprog := reach_progress hZ ⟨T, hZT, rfl⟩ h
  have hC := hprog.consumed_le
  refine ⟨hprog.handed, fun n hn => ?_, ?_, fun hfound => ?_, fun hfin => ?_, ?_⟩
  · obtain ⟨bs, hbs, hlen, hpre, hne, -, hfin⟩ := read_serves hZ hprog.tracks hn
    refine ⟨bs, _, Prod.ext hbs rfl, hlen, hpre, ⟨fun hnil => ?_, fun hall => ?_⟩, hfin⟩
    · refine Nat.le_antisymm hC (Nat.le_of_not_lt fun hlt => hne ?_ hnil)
      simp only [ne_eq, List.drop_eq_nil_iff]
      omega
    · rw [hall, List.drop_length] at hpre
      exact List.prefix_nil.1 hpre
  · obtain ⟨sc', hdrain, -, -⟩ := drain_tracks hZ hprog.tracks
    exact ⟨sc', by rw [hdrain, List.length_drop]⟩
  · exact Delimiter.after_isSome_iff.1 (found_of_tracks hprog.tracks hfound)
  · obtain ⟨hU, hf⟩ := finished_of_tracks hprog.tracks hfin
    rw [List.drop_eq_nil_iff] at hU
    exact ⟨by omega, by rw [hf, Delimiter.after_isSome_iff]⟩
  · obtain ⟨q, hq, hover⟩ := intoRemaining_tracks hZ hprog.tracks
    exact ⟨q, hq, _, Pushback.streams_over hZ, hover⟩

/-- A scanner of `--` over `a--b`, read one byte at a time, keeps its contract from the start. -/
theorem run_stops_at_delimiter_start :
    Honors ⟨[45, 45], by simp⟩ ([] ++ [97, 45, 45, 98])
      (withSource { inner := ({ data := [97, 45, 45, 98], chunk := some 1 } : Source) }
        ⟨[45, 45], by simp⟩) [] 0 :=
  @run_stops_at_delimiter Source _ ⟨[45, 45], by simp⟩
    { inner := ({ data := [97, 45, 45, 98], chunk := some 1 } : Source) } [97, 45, 45, 98]
    (Source.yields _ rfl) _ _ _ .start

/-! ## Reading again after a failure

A top-up that fails keeps the bytes it read, unsearched, and the next request serves them but
for the last `|d|`. The contract above is for sources that do not fail; over one that does, a
request made again after a failure can hand out bytes of the delimiter itself. -/

/-- A scanner of `xa` over a source that delivers `xab` and then fails: the first read fails while
topping up its window, and read again the scanner hands out `x`, the first byte of the delimiter,
although the delimiter starts the stream and nothing comes before it. -/
theorem retry_after_failure_passes_delimiter :
    let d : Delimiter := ⟨[120, 97], by simp⟩
    let first := (new ({ data := [120, 97, 98], fails := true } : Source) d).read 1
    first.1 = .failed ∧ (first.2.read 1).1 = .bytes [120] ∧ d.before [120, 97, 98] = [] := by
  intro d first
  -- the first read tops the window up with all three bytes, then the source fails
  obtain ⟨hfail, hwin, hph, hd⟩ : first.1 = .failed ∧ first.2.window = [120, 97, 98] ∧
      first.2.phase = .scanning ∧ first.2.delimiter = d := by
    simp [first, new, withSource, read, refillThenDeliver, refill, ByteReader.readUpTo,
      ByteReader.gatherFrom, ByteReader.read, Pushback.read, Source.read, Source.piece, d,
      Delimiter.length]
  -- read again, the scanner serves the unsearched window but for its last two bytes
  refine ⟨hfail, ?_, rfl⟩
  simp [read, hph, deliver, serve, hwin, hd, d, Delimiter.length]

end Scanner

end MimeMultipart
