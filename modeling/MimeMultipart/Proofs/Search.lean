import MimeMultipart.Delimiter
/-!
# The search finds the leftmost occurrence

`Delimiter.find` is Knuth-Morris-Pratt search: `borderTable` holds, for each prefix of the
delimiter, the length of its longest proper border (`borderTable_entry`), and `advance` extends
the matched length by one byte, falling back along borders. The matched length after a text `x`
is the longest prefix of the delimiter that is a suffix of `x` (`advance_spec`), so the search
stops at the first position where an occurrence ends, and returns where it starts:

    d.find hay = firstMatch d.bytes hay                              (find_eq_firstMatch)

`firstMatch` tries each position in turn; `firstMatch_eq_some_iff` and `firstMatch_eq_none_iff`
say what it returns without reference to its recursion. `find_is_least_window` puts the two
together for a delimiter made from any non-empty needle: the search answers the least position
whose window is the needle.

`borderTable_longest_borders` states the table on its own: one entry per byte, entry `i` the
longest proper border of the first `i + 1` bytes (`IsBorder`), and so at most `i`.
`borderTable_eq_longestBorder` identifies each entry with the border found by trying every length.
-/

namespace MimeMultipart

namespace Delimiter

/-! ## Occurrences, position by position -/

/-- `firstMatch` answers a position exactly when the needle starts there and at no earlier one. -/
theorem firstMatch_eq_some_iff {P X : List UInt8} {q : Nat} :
    firstMatch P X = some q ↔ P <+: X.drop q ∧ ∀ q' < q, ¬P <+: X.drop q' := by
  induction X generalizing q with
  | nil =>
    by_cases hP : P = []
    · subst hP
      cases q with
      | zero => simp [firstMatch]
      | succ q => simpa [firstMatch] using ⟨0, by omega⟩
    · simp [firstMatch, hP]
  | cons x X ih =>
    by_cases hx : P <+: x :: X
    · cases q with
      | zero => simp [firstMatch, hx]
      | succ q =>
        simp only [firstMatch, List.isPrefixOf_iff_prefix, hx, if_true, Option.some.injEq]
        exact ⟨by omega, fun h => absurd hx (h.2 0 (by omega))⟩
    · cases q with
      | zero => simp [firstMatch, hx]
      | succ q =>
        simp only [firstMatch, List.isPrefixOf_iff_prefix, hx, if_false, Option.map_eq_some_iff,
          Nat.add_right_cancel_iff, exists_eq_right, ih, List.drop_succ_cons]
        constructor
        · rintro ⟨hq, hearlier⟩
          refine ⟨hq, fun q' hq' => ?_⟩
          cases q' with
          | zero => exact hx
          | succ q' => exact hearlier q' (by omega)
        · rintro ⟨hq, hearlier⟩
          exact ⟨hq, fun q' hq' => hearlier (q' + 1) (by omega)⟩

/-- `firstMatch` answers nothing exactly when the needle starts nowhere. -/
theorem firstMatch_eq_none_iff {P X : List UInt8} :
    firstMatch P X = none ↔ ∀ q, ¬P <+: X.drop q := by
  induction X with
  | nil =>
    by_cases hP : P = []
    · subst hP
      simp [firstMatch]
    · simp [firstMatch, hP]
  | cons x X ih =>
    by_cases hx : P <+: x :: X
    · simp only [firstMatch, List.isPrefixOf_iff_prefix, hx, if_true, reduceCtorEq, false_iff,
        Classical.not_forall, Classical.not_not]
      exact ⟨0, hx⟩
    · simp only [firstMatch, List.isPrefixOf_iff_prefix, hx, if_false, Option.map_eq_none_iff, ih]
      constructor
      · intro h q
        cases q with
        | zero => exact hx
        | succ q => exact h q
      · intro h q
        exact h (q + 1)


/-! ## Borders and the matched length -/

/-- Entry `j` of `table` is the length of the longest proper border of the first `j + 1` bytes
of `P`: a proper prefix that is also a suffix. -/
def BorderEntry (P : List UInt8) (table : Array Nat) (j : Nat) : Prop :=
  ∃ t, table[j]? = some t ∧ t ≤ j ∧ P.take t <:+ P.take (j + 1) ∧
    ∀ m ≤ j, P.take m <:+ P.take (j + 1) → m ≤ t

theorem take_succ_suffix_iff {P x : List UInt8} {m : Nat} {b : UInt8} (hm : m < P.length) :
    P.take (m + 1) <:+ x ++ [b] ↔ P.take m <:+ x ∧ P[m]? = some b := by
  rw [List.take_add_one, List.getElem?_eq_getElem hm, Option.toList_some,
    List.suffix_append_inj_of_length_eq (by rfl : [P[m]].length = [b].length)]
  simp

theorem advance_le (pat : Array UInt8) (table : Array Nat) (b : UInt8) (k : Nat) :
    advance pat table b k ≤ k + 1 := by
  fun_induction advance pat table b k <;> omega

/-- One step of the search. If the first `k` bytes of `P` end the text `x`, and every prefix of
length at most `B` that ends `x ++ [b]` is at most one byte longer, then `advance` gives the
longest such prefix. The fallback reads only the table entries below `k`, so the lemma also
serves while the table is being built. -/
theorem advance_spec {P x : List UInt8} {table : Array Nat} {b : UInt8} (B k : Nat)
    (hB : B ≤ P.length) (htab : ∀ j < k, BorderEntry P table j) (hsuf : P.take k <:+ x)
    (hup : ∀ m ≤ B, P.take m <:+ x ++ [b] → m ≤ k + 1) :
    P.take (advance P.toArray table b k) <:+ x ++ [b] ∧
      ∀ m ≤ B, P.take m <:+ x ++ [b] → m ≤ advance P.toArray table b k := by
  induction k using Nat.strongRecOn with
  | ind k ih =>
    rw [advance.eq_def]
    by_cases hk : P[k]? = some b
    · obtain ⟨hlt, -⟩ := List.getElem?_eq_some_iff.1 hk
      rw [if_pos (by simpa using hk)]
      exact ⟨(take_succ_suffix_iff hlt).2 ⟨hsuf, hk⟩, hup⟩
    · rw [if_neg (by simpa using hk)]
      -- the mismatch rules out length `k + 1`; each shorter candidate is a border of `P.take k`
      have hcand : ∀ m ≤ B, P.take m <:+ x ++ [b] → m ≤ k := by
        intro m hm hsm
        refine Nat.le_of_lt_succ (Nat.lt_of_le_of_ne (hup m hm hsm) fun hmk => ?_)
        subst hmk
        exact hk ((take_succ_suffix_iff (by omega)).1 hsm).2
      cases k with
      | zero => exact ⟨by simp, hcand⟩
      | succ j =>
        obtain ⟨t, ht, htj, htsuf, htmax⟩ := htab j (by omega)
        have hmin : min (table[j]?.getD 0) j = t := by simp [ht]; omega
        simp only [hmin]
        refine ih t (by omega) (fun i hi => htab i (by omega)) (htsuf.trans hsuf) ?_
        intro m hm hsm
        cases m with
        | zero => omega
        | succ m =>
          have hmk := hcand (m + 1) hm hsm
          obtain ⟨hsm', -⟩ := (take_succ_suffix_iff (by omega)).1 hsm
          have hborder : P.take m <:+ P.take (j + 1) :=
            List.suffix_of_suffix_length_le hsm' hsuf (by simp; omega)
          have := htmax m (by omega) hborder
          omega

/-- The table built so far holds the border entries of the first `i + 1` prefixes, the last of
them being the carried matched length. -/
def TableUpTo (P : List UInt8) (acc : Array Nat × Nat) (i : Nat) : Prop :=
  acc.1.size = i + 1 ∧ (∀ j ≤ i, BorderEntry P acc.1 j) ∧ acc.1[i]? = some acc.2

theorem borderEntry_push {P : List UInt8} {table : Array Nat} {j k : Nat}
    (hj : j < table.size) (h : BorderEntry P table j) : BorderEntry P (table.push k) j := by
  obtain ⟨t, ht, rest⟩ := h
  exact ⟨t, by rw [Array.getElem?_push, if_neg (by omega), ht], rest⟩

theorem tableUpTo_step {P : List UInt8} {acc : Array Nat × Nat} {i : Nat} {b : UInt8}
    (hi : P[i + 1]? = some b) (h : TableUpTo P acc i) :
    TableUpTo P ((acc.1.push (advance P.toArray acc.1 b acc.2)), advance P.toArray acc.1 b acc.2)
      (i + 1) := by
  obtain ⟨hsize, hentries, hlast⟩ := h
  obtain ⟨hlt, -⟩ := List.getElem?_eq_some_iff.1 hi
  obtain ⟨t, ht, hti, htsuf, htmax⟩ := hentries i (Nat.le_refl i)
  have htk : t = acc.2 := Option.some.inj (ht.symm.trans hlast)
  subst htk
  have hnext : P.take (i + 1) ++ [b] = P.take (i + 2) := by
    rw [List.take_add_one (i := i + 1), hi]
    rfl
  obtain ⟨hsuf, hmax⟩ := advance_spec (i + 1) acc.2 (by omega)
    (fun j hj => hentries j (by omega)) htsuf (by
      intro m hm hsm
      cases m with
      | zero => omega
      | succ m =>
        obtain ⟨hsm', -⟩ := (take_succ_suffix_iff (by omega)).1 hsm
        have := htmax m (by omega) hsm'
        omega)
  rw [hnext] at hsuf hmax
  have hpush : (acc.1.push (advance P.toArray acc.1 b acc.2))[i + 1]? =
      some (advance P.toArray acc.1 b acc.2) := by
    rw [Array.getElem?_push, if_pos (by omega)]
  refine ⟨by simp [hsize], fun j hj => ?_, hpush⟩
  rcases Nat.lt_or_eq_of_le hj with hj | rfl
  · exact borderEntry_push (by omega) (hentries j (by omega))
  · refine ⟨_, hpush, ?_, hsuf, hmax⟩
    have := advance_le P.toArray acc.1 b acc.2
    omega

theorem tableUpTo_foldl {P : List UInt8} :
    ∀ (ys : List UInt8) (acc : Array Nat × Nat) (i : Nat), ys = P.drop (i + 1) → i < P.length →
      TableUpTo P acc i →
      TableUpTo P (ys.foldl (fun (acc : Array Nat × Nat) b =>
        let k := advance P.toArray acc.1 b acc.2
        (acc.1.push k, k)) acc) (P.length - 1)
  | [], acc, i, hys, hi, h => by
    have : P.length ≤ i + 1 := by
      have := congrArg List.length hys
      simp at this
      omega
    rwa [show P.length - 1 = i by omega]
  | b :: ys, acc, i, hys, hi, h => by
    have hb : P[i + 1]? = some b := by
      rw [← List.head?_drop, ← hys]
      rfl
    have hys' : ys = P.drop (i + 2) := by
      rw [← List.tail_drop, ← hys]
      rfl
    exact tableUpTo_foldl ys _ (i + 1) hys' (List.getElem?_eq_some_iff.1 hb).1
      (tableUpTo_step hb h)

/-- The finished table has one entry per byte of a non-empty `P`, each the longest proper border
of its prefix. -/
theorem borderTable_built (P : List UInt8) (hP : 0 < P.length) :
    (borderTable P.toArray).size = P.length ∧
      ∀ j < P.length, BorderEntry P (borderTable P.toArray) j := by
  have hstart : TableUpTo P (#[0], 0) 0 :=
    ⟨rfl, fun j hj => ⟨0, by simp [show j = 0 by omega], by omega, by simp,
      fun m hm _ => by omega⟩, rfl⟩
  obtain ⟨hsize, hentries, -⟩ :=
    tableUpTo_foldl (P.toArray.toList.drop 1) (#[0], 0) 0 (by simp) hP hstart
  exact ⟨by rw [borderTable, hsize]; omega, fun j hj => hentries j (by omega)⟩

/-- Each entry of the border table is the longest proper border of its prefix. -/
theorem borderTable_entry (P : List UInt8) (j : Nat) (hj : j < P.length) :
    BorderEntry P (borderTable P.toArray) j :=
  (borderTable_built P (by omega)).2 j hj

/-! ## The search -/

theorem prefix_drop_append {P X Y : List UInt8} {q : Nat} (h : P <+: (X ++ Y).drop q)
    (hq : q + P.length ≤ X.length) : P <+: X.drop q := by
  rw [List.drop_append_of_le_length (by omega)] at h
  exact List.prefix_of_prefix_length_le h (List.prefix_append _ _) (by simp; omega)

theorem scan_eq_firstMatch {P : List UInt8} :
    ∀ (y x : List UInt8) (k : Nat), k < P.length → P.take k <:+ x →
      (∀ m ≤ P.length, P.take m <:+ x → m ≤ k) → (∀ q, ¬P <+: x.drop q) →
      scan P.toArray (borderTable P.toArray) y x.length k = firstMatch P (x ++ y)
  | [], x, k, _, _, _, hnone => by
    simpa [scan] using (firstMatch_eq_none_iff.2 hnone).symm
  | b :: y, x, k, hk, hsuf, hmax, hnone => by
    obtain ⟨hsuf', hmax'⟩ := advance_spec P.length k (Nat.le_refl _)
      (fun j hj => borderTable_entry P j (by omega)) hsuf (by
        intro m hm hsm
        cases m with
        | zero => omega
        | succ m =>
          obtain ⟨hsm', -⟩ := (take_succ_suffix_iff (by omega)).1 hsm
          have := hmax m (by omega) hsm'
          omega)
    have hle := advance_le P.toArray (borderTable P.toArray) b k
    simp only [scan, List.size_toArray]
    split
    · rename_i hfull
      rw [hfull, List.take_length] at hsuf'
      have hlen := hsuf'.length_le
      simp only [List.length_append, List.length_singleton] at hlen
      refine (firstMatch_eq_some_iff.2 ⟨?_, fun q' hq' hocc => ?_⟩).symm
      · rw [show x ++ b :: y = (x ++ [b]) ++ y by simp,
          List.drop_append_of_le_length (by simp only [List.length_append, List.length_singleton]; omega)]
        rw [List.suffix_iff_eq_drop] at hsuf'
        simp only [List.length_append, List.length_singleton] at hsuf'
        rw [← hsuf']
        exact List.prefix_append _ _
      · exact hnone q' (prefix_drop_append hocc (by omega))
    · rename_i hpart
      -- an occurrence inside `x ++ [b]` but not inside `x` ends with `b`: a full match
      rw [show x.length + 1 = (x ++ [b]).length by simp,
        show x ++ b :: y = (x ++ [b]) ++ y by simp]
      refine scan_eq_firstMatch y (x ++ [b]) _ (by omega) hsuf' hmax' fun q hocc => ?_
      by_cases hq : q + P.length ≤ x.length
      · exact hnone q (prefix_drop_append hocc hq)
      · have hlen := hocc.length_le
        simp only [List.length_drop, List.length_append, List.length_singleton] at hlen
        have heq : P = (x ++ [b]).drop q :=
          hocc.eq_of_length (by simp; omega)
        have := hmax' P.length (Nat.le_refl _) (by rw [List.take_length, heq]; exact List.drop_suffix _ _)
        omega

/-- The search returns the leftmost position at which the delimiter starts. -/
theorem find_eq_firstMatch (d : Delimiter) (hay : List UInt8) :
    d.find hay = firstMatch d.bytes hay := by
  have hnone : ∀ q, ¬d.bytes <+: ([] : List UInt8).drop q := by
    intro q hq
    exact d.nonempty (List.prefix_nil.1 (by simpa using hq))
  have hmax : ∀ m ≤ d.bytes.length, d.bytes.take m <:+ [] → m ≤ 0 := by
    intro m hm hsm
    have := List.suffix_nil.1 hsm
    rw [List.take_eq_nil_iff] at this
    exact this.elim Nat.le_of_eq (fun h => absurd h d.nonempty)
  exact scan_eq_firstMatch hay [] 0 (List.length_pos_iff.2 d.nonempty) (by simp) hmax hnone

/-! ## Windows of the text -/

theorem window_eq_iff {P X : List UInt8} {i : Nat} :
    (X.drop i).take P.length = P ↔ P <+: X.drop i :=
  eq_comm.trans List.prefix_iff_eq_take.symm

/-- The search over any non-empty needle agrees with trying every window in turn: it answers the
least `i` whose window of `needle.length` bytes is the needle, and nothing when no window is. -/
theorem find_is_least_window (needle hay : List UInt8) (hne : needle ≠ []) :
    ∃ d, ofBytes? needle = .ok d ∧
      (∀ i, d.find hay = some i ↔
        (hay.drop i).take needle.length = needle ∧
          ∀ j < i, (hay.drop j).take needle.length ≠ needle) ∧
      (d.find hay = none ↔ ∀ i, (hay.drop i).take needle.length ≠ needle) := by
  have hnew : ofBytes? needle = .ok ⟨needle, hne⟩ := by simp [ofBytes?, hne]
  refine ⟨⟨needle, hne⟩, hnew, fun i => ?_, ?_⟩
  · rw [find_eq_firstMatch, firstMatch_eq_some_iff]
    simp only [window_eq_iff, ne_eq]
  · rw [find_eq_firstMatch, firstMatch_eq_none_iff]
    simp only [window_eq_iff, ne_eq]

/-- The needle `--` in a text where a lone `-` comes before it. -/
theorem find_is_least_window_dashes :
    let needle : List UInt8 := [45, 45]
    let hay : List UInt8 := [13, 10, 45, 13, 10, 45, 45, 13]
    needle ≠ [] ∧ ∃ d, ofBytes? needle = .ok d ∧
      (∀ i, d.find hay = some i ↔
        (hay.drop i).take needle.length = needle ∧
          ∀ j < i, (hay.drop j).take needle.length ≠ needle) ∧
      (d.find hay = none ↔ ∀ i, (hay.drop i).take needle.length ≠ needle) := by
  intro needle hay
  exact ⟨by decide, find_is_least_window needle hay (by decide)⟩

/-! ## The table holds the longest borders

`BorderEntry` speaks of prefixes of `P` that end a prefix of `P`; `IsBorder` says the same of one
text alone, and `longestBorder` finds the longest border by trying lengths from the longest down.
-/

theorem isBorder_iff {xs : List UInt8} {k : Nat} :
    IsBorder xs k ↔ k < xs.length ∧ xs.take k <:+ xs := by
  unfold IsBorder
  refine and_congr_right fun hk => ?_
  rw [List.suffix_iff_eq_drop, List.length_take, Nat.min_eq_left (by omega), eq_comm]

/-- The borders of the first `j + 1` bytes of `P` are the prefixes of `P` that end them. -/
theorem isBorder_take_iff {P : List UInt8} {j k : Nat} (hj : j < P.length) :
    IsBorder (P.take (j + 1)) k ↔ k ≤ j ∧ P.take k <:+ P.take (j + 1) := by
  rw [isBorder_iff, List.length_take, Nat.min_eq_left (by omega), List.take_take]
  constructor
  · rintro ⟨hk, hsuf⟩
    exact ⟨by omega, by rwa [Nat.min_eq_left (by omega)] at hsuf⟩
  · rintro ⟨hk, hsuf⟩
    exact ⟨by omega, by rwa [Nat.min_eq_left (by omega)]⟩

/-- `longestBorder` finds the longest border of a non-empty text. The empty prefix is always a
border, so the search never comes back empty; the lengths are tried in decreasing order, so
every longer border would have been found first. -/
theorem longestBorder_spec {xs : List UInt8} (hxs : xs ≠ []) :
    IsBorder xs (longestBorder xs) ∧ ∀ k, IsBorder xs k → k ≤ longestBorder xs := by
  have hlen := List.length_pos_iff.2 hxs
  have hborder : ∀ k, IsBorder xs k ↔ k ∈ (List.range xs.length).reverse ∧
      (xs.take k == xs.drop (xs.length - k)) = true := by
    intro k
    simp [IsBorder]
  unfold longestBorder
  cases hf : (List.range xs.length).reverse.find? (fun k => xs.take k == xs.drop (xs.length - k))
    with
  | none =>
    have := List.find?_eq_none.1 hf 0 (by simpa using hlen)
    simp at this
  | some t =>
    obtain ⟨ht, as, bs, hsplit, hbefore⟩ := List.find?_eq_some_iff_append.1 hf
    have hsorted : ((List.range xs.length).reverse).Pairwise (fun a b => b < a) :=
      List.pairwise_reverse.2 List.pairwise_lt_range
    rw [hsplit, List.pairwise_append, List.pairwise_cons] at hsorted
    have htmem : t ∈ (List.range xs.length).reverse := by
      rw [hsplit]
      simp
    refine ⟨(hborder t).2 ⟨htmem, ht⟩, fun k hk => ?_⟩
    obtain ⟨hkmem, hkp⟩ := (hborder k).1 hk
    rw [hsplit] at hkmem
    rcases List.mem_append.1 hkmem with hk' | hk'
    · -- a longer length tried earlier failed the test
      have := hbefore k hk'
      simp [hkp] at this
    · rcases List.mem_cons.1 hk' with rfl | hk'
      · exact Nat.le_refl _
      · exact Nat.le_of_lt (hsorted.2.1.1 k hk')

/-- Each entry of the table is the longest border of its prefix, as `longestBorder` finds it. -/
theorem borderTable_eq_longestBorder (P : List UInt8) (j : Nat) (hj : j < P.length) :
    (borderTable P.toArray)[j]? = some (longestBorder (P.take (j + 1))) := by
  obtain ⟨t, ht, htj, htsuf, htmax⟩ := borderTable_entry P j hj
  have hne : P.take (j + 1) ≠ [] := by
    rw [ne_eq, List.take_eq_nil_iff]
    exact fun h => h.elim (by omega) fun hP => by simp [hP] at hj
  obtain ⟨hlb, hlbmax⟩ := longestBorder_spec hne
  obtain ⟨hle, hsuf⟩ := (isBorder_take_iff hj).1 hlb
  have hlo : t ≤ longestBorder (P.take (j + 1)) := hlbmax t ((isBorder_take_iff hj).2 ⟨htj, htsuf⟩)
  rw [ht, Nat.le_antisymm hlo (htmax _ hle hsuf)]

example : borderTable #[97, 97, 98, 97, 97, 97, 98] = #[0, 1, 0, 1, 2, 2, 3] := by decide +kernel

/-- The border table of a non-empty needle has one entry per byte, and entry `i` is the length of
the longest proper prefix of the first `i + 1` bytes that is also their suffix. Each entry is
therefore at most its index: a fallback from a match of `i + 1` bytes always shortens it, and
every entry read lies within the table. -/
theorem borderTable_longest_borders (needle : List UInt8) (hne : needle ≠ []) :
    (borderTable needle.toArray).size = needle.length ∧
      ∀ i < needle.length, ∃ t, (borderTable needle.toArray)[i]? = some t ∧ t ≤ i ∧
        IsBorder (needle.take (i + 1)) t ∧ ∀ k, IsBorder (needle.take (i + 1)) k → k ≤ t := by
  have hlen := List.length_pos_iff.2 hne
  obtain ⟨hsize, hentries⟩ := borderTable_built needle hlen
  refine ⟨hsize, fun i hi => ?_⟩
  obtain ⟨t, ht, hti, htsuf, htmax⟩ := hentries i hi
  refine ⟨t, ht, hti, (isBorder_take_iff hi).2 ⟨hti, htsuf⟩, fun k hk => ?_⟩
  obtain ⟨hki, hksuf⟩ := (isBorder_take_iff hi).1 hk
  exact htmax k hki hksuf

/-- The table of the self-overlapping needle `aabaaab`. -/
theorem borderTable_longest_borders_self_overlapping :
    let needle : List UInt8 := [97, 97, 98, 97, 97, 97, 98]
    needle ≠ [] ∧ (borderTable needle.toArray).size = needle.length ∧
      ∀ i < needle.length, ∃ t, (borderTable needle.toArray)[i]? = some t ∧ t ≤ i ∧
        IsBorder (needle.take (i + 1)) t ∧ ∀ k, IsBorder (needle.take (i + 1)) k → k ≤ t := by
  intro needle
  exact ⟨by decide, borderTable_longest_borders needle (by decide)⟩

end Delimiter

end MimeMultipart
