import MimeMultipart.Proofs.Utf8
import MimeMultipart.Reference
/-!
# Header maps agree with the lookups of the header list

A header list is looked up in two ways. `Headers.getAll` compares each trimmed name with the
query up to ASCII case; the header map files each header under the header name of its trimmed
name and is looked up by the header name of the query. Over a library whose header names are
token bytes spelled with ASCII letters lowered (`Http.Lawful`), both ways compare the same
lower-case text (`isNamed_iff_name_eq`), and the map holds under the query's name the trimmed
values of the headers that answer to it, in order, in ISO-8859-1:

    ((hs.getAll q).map Blank.trim).mapM Latin1.encode? = some (http.getAll m k)   (getAll_toHeaderMap)

Building the map fails exactly at the first header that fails its check
(`appendAll_eq_error_iff`), and a header fails on its name before its value
(`field_eq_error_iff`, `Header.Refused`).

The map is made with room for the list's headers, which the library may refuse, halting.
`headerMap_agrees_with_lookups` states the agreement over every lawful library that grants the
room; the reference library is lawful (`reference_lawful`) and refuses the room to 24577 headers
that all pass their checks (`headerMap_halts_on_valid_headers`).
-/

namespace MimeMultipart

/-! ## ISO-8859-1 -/

namespace Latin1

theorem mapM_byte?_of_lt {cs : List Char} (h : ∀ c ∈ cs, c.toNat < 256) :
    cs.mapM byte? = some (cs.map fun c => c.toNat.toUInt8) := by
  induction cs with
  | nil => rfl
  | cons c cs ih =>
    have hc : c.toNat < 256 := h c List.mem_cons_self
    simp only [List.mapM_cons, byte?, hc, if_true, Option.pure_def, Option.bind_eq_bind,
      Option.bind_some, List.map_cons]
    rw [ih fun x hx => h x (List.mem_cons_of_mem _ hx)]
    rfl

theorem mapM_byte?_of_gt {cs : List Char} (h : ∃ c ∈ cs, 255 < c.toNat) : cs.mapM byte? = none := by
  induction cs with
  | nil => simp at h
  | cons c cs ih =>
    by_cases hc : c.toNat < 256
    · have hrest : ∃ x ∈ cs, 255 < x.toNat := by
        obtain ⟨x, hx, hgt⟩ := h
        rcases List.mem_cons.1 hx with rfl | hx
        · omega
        · exact ⟨x, hx, hgt⟩
      simp [List.mapM_cons, byte?, hc, ih hrest]
    · simp [List.mapM_cons, byte?, hc]

/-- The ISO-8859-1 bytes of a text, when none of its characters is past U+00FF. -/
theorem encode?_eq_some_iff {s : String} {bs : List UInt8} :
    encode? s = some bs ↔ (∀ c ∈ s.toList, c.toNat < 256) ∧ bs = s.toList.map (·.toNat.toUInt8) := by
  constructor
  · intro h
    have hall : ∀ c ∈ s.toList, c.toNat < 256 := fun c hc => Nat.lt_of_not_le fun hge => by
      rw [encode?, mapM_byte?_of_gt ⟨c, hc, by omega⟩] at h
      cases h
    rw [encode?, mapM_byte?_of_lt hall] at h
    exact ⟨hall, (Option.some.inj h).symm⟩
  · rintro ⟨hall, rfl⟩
    exact mapM_byte?_of_lt hall

/-- A text has no ISO-8859-1 bytes exactly when one of its characters is past U+00FF. -/
theorem encode?_eq_none_iff (s : String) : encode? s = none ↔ ∃ c ∈ s.toList, 255 < c.toNat := by
  refine ⟨fun h => Classical.byContradiction fun hall => ?_, mapM_byte?_of_gt⟩
  have hlt : ∀ c ∈ s.toList, c.toNat < 256 := fun c hc =>
    Nat.lt_of_not_le fun hge => hall ⟨c, hc, by omega⟩
  rw [encode?_eq_some_iff.2 ⟨hlt, rfl⟩] at h
  cases h

end Latin1

/-! ## Header names -/

theorem isFieldNameByte_lt {b : UInt8} (h : isFieldNameByte b = true) : b.toNat < 128 := by
  simp only [isFieldNameByte, Bool.or_eq_true, Bool.and_eq_true, decide_eq_true_eq,
    UInt8.le_iff_toNat_le, List.contains_iff_mem, List.mem_cons, List.not_mem_nil, or_false] at h
  rcases h with (((⟨-, h⟩ | ⟨-, h⟩) | ⟨-, h⟩) | h)
  · simp at h; omega
  · simp at h; omega
  · simp at h; omega
  · rcases h with h | h | h | h | h | h | h | h | h | h | h | h | h | h | h <;> subst h <;> decide

theorem lowerByte_toNat (b : UInt8) :
    (lowerByte b).toNat =
      if 65 ≤ b.toNat ∧ b.toNat ≤ 90 then b.toNat + 32 else b.toNat := by
  have hiff : (65 ≤ b && b ≤ 90) = true ↔ 65 ≤ b.toNat ∧ b.toNat ≤ 90 := by
    simp only [Bool.and_eq_true, decide_eq_true_eq, UInt8.le_iff_toNat_le, UInt8.reduceToNat]
  by_cases hb : 65 ≤ b.toNat ∧ b.toNat ≤ 90
  · rw [lowerByte, if_pos (hiff.2 hb), if_pos hb, UInt8.toNat_add]
    simp only [UInt8.reduceToNat]
    omega
  · rw [lowerByte, if_neg (mt hiff.1 hb), if_neg hb]

theorem char_lowerByte {b : UInt8} (hb : b.toNat < 128) :
    Char.ofNat (lowerByte b).toNat = (Char.ofNat b.toNat).toLower := by
  have hlower : ∀ n < 128,
      (Char.ofNat n).toLower = Char.ofNat (if 65 ≤ n ∧ n ≤ 90 then n + 32 else n) := by
    decide
  rw [hlower _ hb, lowerByte_toNat]

theorem decodeFrom_ascii : ∀ (bs : List UInt8) (acc : List Char), (∀ b ∈ bs, b.toNat < 0x80) →
    Utf8.decodeFrom bs acc = some (acc.reverse ++ bs.map fun b => Char.ofNat b.toNat)
  | [], acc, _ => by simp [Utf8.decodeFrom]
  | b :: bs, acc, h => by
    rw [Utf8.decodeFrom_one (h b List.mem_cons_self),
      decodeFrom_ascii bs _ fun x hx => h x (List.mem_cons_of_mem _ hx)]
    simp

theorem toList_of_encode_ascii {s : String} (h : ∀ b ∈ Utf8.encode s, b.toNat < 0x80) :
    s.toList = (Utf8.encode s).map fun b => Char.ofNat b.toNat := by
  have hdec := Utf8.decode?_encode s
  rw [Utf8.decode?, Utf8.decodeChars, decodeFrom_ascii _ [] h] at hdec
  simp only [List.reverse_nil, List.nil_append, Option.map_some, Option.some.injEq] at hdec
  rw [← congrArg String.toList hdec, String.toList_ofList]

/-- A text whose bytes make a header name is the name in lower case: the bytes are token bytes,
so the text is ASCII, and lowering its bytes lowers its characters. -/
theorem Http.Lawful.name_encode {http : Http} (hl : http.Lawful) {s k : String}
    (h : http.name? (Utf8.encode s) = some k) : k = String.ofList (s.toList.map Char.toLower) := by
  have hascii : ∀ b ∈ Utf8.encode s, b.toNat < 0x80 := fun b hb =>
    isFieldNameByte_lt (hl.name_tokens h b hb)
  rw [hl.name_lower h, Latin1.decode, toList_of_encode_ascii hascii, List.map_map, List.map_map]
  congr 1
  exact List.map_congr_left fun b hb => char_lowerByte (hascii b hb)

/-- A header whose trimmed name makes a header name answers to a query that makes one exactly
when the two names are equal. -/
theorem Http.Lawful.isNamed_iff_name_eq {http : Http} (hl : http.Lawful) {h : Header}
    {q k k' : String} (hk : http.nameOf? h = some k) (hq : http.name? (Utf8.encode q) = some k') :
    h.isNamed q = true ↔ k = k' := by
  rw [Header.isNamed, sameUpToCase, beq_iff_eq, hl.name_encode hk, hl.name_encode hq,
    String.ofList_inj]

/-! ## One header -/

/-- Why the conversion refuses a header, in the order its checks run: its trimmed name makes no
header name (`invalid part header name`); a character of its trimmed value is past U+00FF
(`header value is not ISO-8859-1`); or a byte of its trimmed value is a control byte other than
tab (`invalid part header value`). -/
inductive Header.Refused (http : Http) (h : Header) : ParseError → Prop
  | name : http.nameOf? h = none → h.Refused http .invalidFieldName
  | notLatin1 : (http.nameOf? h).isSome → (∃ c ∈ h.trimmedValue.toList, 255 < c.toNat) →
      h.Refused http .fieldValueNotLatin1
  | value : (http.nameOf? h).isSome → (∀ c ∈ h.trimmedValue.toList, c.toNat < 256) →
      (∃ c ∈ h.trimmedValue.toList, isFieldValueByte c.toNat.toUInt8 = false) →
      h.Refused http .invalidFieldValue

namespace Http

variable {http : Http}

/-- A header that passes gives its header name and its trimmed value in ISO-8859-1. -/
theorem field_eq_ok {h : Header} {f : String × List UInt8} (hf : http.field h = .ok f) :
    http.nameOf? h = some f.1 ∧ Latin1.encode? h.trimmedValue = some f.2 := by
  unfold field at hf
  split at hf
  · cases hf
  · rename_i k hk
    split at hf
    · cases hf
    · rename_i bs hbs
      split at hf
      · cases hf
        exact ⟨hk, hbs⟩
      · cases hf

/-- A header fails its check exactly for the first reason its checks find. -/
theorem field_eq_error_iff (hl : http.Lawful) (h : Header) (e : ParseError) :
    http.field h = .error e ↔ h.Refused http e := by
  constructor
  · intro hf
    unfold field at hf
    split at hf
    · rename_i hname
      cases hf
      exact .name hname
    · rename_i k hname
      have hsome : (http.nameOf? h).isSome := by simp [hname]
      split at hf
      · rename_i hbs
        cases hf
        exact .notLatin1 hsome ((Latin1.encode?_eq_none_iff _).1 hbs)
      · rename_i bs hbs
        split at hf
        · cases hf
        · rename_i hbad
          cases hf
          obtain ⟨hall, hbytes⟩ := Latin1.encode?_eq_some_iff.1 hbs
          rw [hl.isValue_iff] at hbad
          exact .value hsome hall (by simpa [hbytes] using hbad)
  · rintro (hname | ⟨hname, hbad⟩ | ⟨hname, hall, hbad⟩)
    · simp [field, hname]
    · obtain ⟨k, hk⟩ := Option.isSome_iff_exists.1 hname
      simp [field, hk, (Latin1.encode?_eq_none_iff _).2 hbad]
    · obtain ⟨k, hk⟩ := Option.isSome_iff_exists.1 hname
      have hbs := Latin1.encode?_eq_some_iff.2 ⟨hall, rfl⟩
      have hnot : http.isValue (h.trimmedValue.toList.map (·.toNat.toUInt8)) = false := by
        rw [hl.isValue_iff]
        simpa using hbad
      simp [field, hk, hbs, hnot]

theorem field_isOk_iff (hl : http.Lawful) (h : Header) :
    (∃ f, http.field h = .ok f) ↔ ∀ e, ¬h.Refused http e := by
  simp only [← field_eq_error_iff hl]
  cases http.field h <;> simp

/-! ## Appending the fields -/

/-- Appending the fields of headers that all pass puts under `k`, after the values already there,
the trimmed values in ISO-8859-1 of the headers whose names make `k`, in order. -/
theorem appendAll_getAll (hl : http.Lawful) : ∀ (hs : List Header) (m m' : http.Map),
    http.appendAll m hs = .ok m' → ∀ k,
      ((hs.filter fun g => http.nameOf? g == some k).mapM
        fun g => Latin1.encode? g.trimmedValue).map (http.getAll m k ++ ·) = some (http.getAll m' k)
  | [], m, m', h, k => by
    cases h
    simp
  | g :: rest, m, m', h, k => by
    unfold appendAll at h
    split at h
    · cases h
    · rename_i k₀ v hf
      obtain ⟨hname, hv⟩ := field_eq_ok hf
      rw [← appendAll_getAll hl rest _ m' h k, hl.getAll_append]
      by_cases hk : k₀ = k
      · -- the header is filed under `k`: its value comes first of those the rest adds
        subst hk
        cases hrest : (rest.filter fun g => http.nameOf? g == some k₀).mapM
            fun g => Latin1.encode? g.trimmedValue <;>
          simp [hname, hv, hrest, List.mapM_cons]
      · have hskip : (http.nameOf? g == some k) = false := by simp [hname, hk]
        simp [hskip, hk]

theorem appendAll_isOk_iff : ∀ (hs : List Header) (m : http.Map),
    (∃ m', http.appendAll m hs = .ok m') ↔ ∀ g ∈ hs, ∃ f, http.field g = .ok f
  | [], m => by simp [appendAll]
  | g :: rest, m => by
    unfold appendAll
    split
    · rename_i e hf
      simp only [reduceCtorEq, exists_false, List.mem_cons, forall_eq_or_imp, false_iff, not_and]
      intro ⟨f, hf'⟩
      rw [hf] at hf'
      cases hf'
    · rename_i name value hf
      rw [appendAll_isOk_iff rest]
      simp [hf]

/-- Appending fields fails at the first header that fails, with its error. -/
theorem appendAll_eq_error_iff : ∀ (hs : List Header) (m : http.Map) (e : ParseError),
    http.appendAll m hs = .error e ↔ ∃ pre g post, hs = pre ++ g :: post ∧
      (∀ x ∈ pre, ∃ f, http.field x = .ok f) ∧ http.field g = .error e
  | [], m, e => by simp [appendAll]
  | g :: rest, m, e => by
    unfold appendAll
    split
    · rename_i e' hf
      -- the first header fails: it decides the error
      constructor
      · intro he
        cases he
        exact ⟨[], g, rest, rfl, by simp, hf⟩
      · rintro ⟨pre, g', post, hsplit, hpre, hg'⟩
        cases pre with
        | nil =>
          cases hsplit
          rw [hf] at hg'
          cases hg'
          rfl
        | cons x pre =>
          obtain ⟨rfl, -⟩ := List.cons.inj hsplit
          obtain ⟨f, hx⟩ := hpre g List.mem_cons_self
          rw [hf] at hx
          cases hx
    · rename_i name value hf
      rw [appendAll_eq_error_iff rest]
      constructor
      · rintro ⟨pre, g', post, rfl, hpre, hg'⟩
        refine ⟨g :: pre, g', post, rfl, fun x hx => ?_, hg'⟩
        rcases List.mem_cons.1 hx with rfl | hx
        · exact ⟨_, hf⟩
        · exact hpre x hx
      · rintro ⟨pre, g', post, hsplit, hpre, hg'⟩
        cases pre with
        | nil =>
          cases hsplit
          rw [hf] at hg'
          cases hg'
        | cons x pre =>
          cases hsplit
          exact ⟨pre, g', post, rfl, fun y hy => hpre y (List.mem_cons_of_mem _ hy), hg'⟩

end Http

/-! ## The map and the lookups -/

namespace Headers

variable {http : Http}

theorem toHeaderMap_of_room {hs : Headers} {m : http.Map} (h : http.withCapacity? hs.size = some m) :
    hs.toHeaderMap http = some (http.appendAll m hs.entries) := by
  simp [toHeaderMap, h]

/-- Over a library that grants the room, the map fails exactly at the first header that is
refused, for its reason. -/
theorem toHeaderMap_eq_error_iff (hl : http.Lawful) {hs : Headers} {m : http.Map}
    (hroom : http.withCapacity? hs.size = some m) (e : ParseError) :
    hs.toHeaderMap http = some (.error e) ↔ ∃ pre h post, hs.entries = pre ++ h :: post ∧
      (∀ g ∈ pre, ∀ e', ¬g.Refused http e') ∧ h.Refused http e := by
  simp only [toHeaderMap_of_room hroom, Option.some.injEq, Http.appendAll_eq_error_iff,
    Http.field_eq_error_iff hl, Http.field_isOk_iff hl]

/-- Over a library that grants the room, the map is built exactly when no header is refused. -/
theorem toHeaderMap_isOk_iff (hl : http.Lawful) {hs : Headers} {m : http.Map}
    (hroom : http.withCapacity? hs.size = some m) :
    (∃ m', hs.toHeaderMap http = some (.ok m')) ↔ ∀ g ∈ hs.entries, ∀ e, ¬g.Refused http e := by
  simp only [toHeaderMap_of_room hroom, Option.some.injEq, Http.appendAll_isOk_iff,
    Http.field_isOk_iff hl]

/-- A query that makes a header name finds under it in the map the trimmed values of exactly
the headers that answer to the query, in order, in ISO-8859-1. -/
theorem getAll_toHeaderMap (hl : http.Lawful) {hs : Headers} {m : http.Map}
    (h : hs.toHeaderMap http = some (.ok m)) {q k : String} (hq : http.name? (Utf8.encode q) = some k) :
    ((hs.getAll q).map Blank.trim).mapM Latin1.encode? = some (http.getAll m k) := by
  obtain ⟨m₀, hroom, happ⟩ : ∃ m₀, http.withCapacity? hs.size = some m₀ ∧
      http.appendAll m₀ hs.entries = .ok m := by
    simpa [toHeaderMap] using h
  -- the headers filed under `k` are those that answer to `q`
  have hfilter : hs.entries.filter (fun g => http.nameOf? g == some k) =
      hs.entries.filter (·.isNamed q) := by
    refine List.filter_congr fun g hg => ?_
    obtain ⟨f, hf⟩ := (Http.appendAll_isOk_iff hs.entries m₀).1 ⟨m, happ⟩ g hg
    obtain ⟨hname, -⟩ := Http.field_eq_ok hf
    have hiff := hl.isNamed_iff_name_eq hname hq
    rw [hname]
    cases hnamed : g.isNamed q
    · have hne : f.1 ≠ k := fun hfk => by rw [hiff.2 hfk] at hnamed; cases hnamed
      simp [hne]
    · simp [hiff.1 hnamed]
  have hget := Http.appendAll_getAll hl hs.entries m₀ m happ k
  rw [hl.getAll_new hroom, hfilter] at hget
  simp only [List.nil_append, Option.map_id', Header.trimmedValue] at hget
  rw [Headers.getAll, List.map_map, List.mapM_map, Function.comp_def, Function.comp_def]
  exact hget

end Headers

/-! ## The reference library -/

namespace FieldMap

theorem values_prepend (m : FieldMap) (name : String) (value : List UInt8) (k : String) :
    (m.prepend name value).values k = if name = k then value :: m.values k else m.values k := by
  unfold prepend values
  split
  · rename_i hany
    -- the name has its group: that group, and no other, gains the value in front
    rw [List.find?_map]
    have hsame : ((fun g : String × List (List UInt8) => g.1 == k) ∘
        fun g => if g.1 == name then (g.1, value :: g.2) else g) = (·.1 == k) := by
      funext g
      simp only [Function.comp]
      split <;> rfl
    rw [hsame]
    cases hf : m.groups.find? (·.1 == k) with
    | none =>
      have hnk : name ≠ k := by
        rintro rfl
        obtain ⟨g, hg, hgn⟩ := List.any_eq_true.1 hany
        exact absurd (List.find?_eq_none.1 hf g hg) (by simpa using hgn)
      simp [hnk]
    | some g =>
      have hg1 : g.1 = k := by simpa using List.find?_some hf
      by_cases hnk : name = k
      · simp [hg1, hnk]
      · have hgn : g.1 ≠ name := by rw [hg1]; exact Ne.symm hnk
        simp [hgn, hnk]
  · rename_i hany
    -- a new group goes at the end
    rw [List.find?_append]
    by_cases hnk : name = k
    · subst hnk
      have hnone : m.groups.find? (·.1 == name) = none := by
        rw [List.find?_eq_none]
        intro g hg hgn
        exact hany (List.any_eq_true.2 ⟨g, hg, hgn⟩)
      simp [hnone]
    · have hnone : [(name, [value])].find? (·.1 == k) = none := by simp [hnk]
      simp [hnone, hnk]

theorem reverse_values_prepend (m : FieldMap) (name : String) (value : List UInt8) (k : String) :
    ((m.prepend name value).values k).reverse =
      if name = k then (m.values k).reverse ++ [value] else (m.values k).reverse := by
  rw [values_prepend]
  split <;> simp

end FieldMap

/-- The reference library meets the laws: its names are token bytes lowered, its values are
checked byte by byte, and its maps keep each name's values newest first and read them back
reversed. -/
theorem Http.reference_lawful : Http.reference.Lawful where
  name_tokens := by
    intro bs k h
    simp only [Http.reference, fieldNameOf?] at h
    split at h
    · cases h
    · rename_i hvalid
      simp only [Bool.or_eq_true, Bool.not_eq_true', not_or, Bool.not_eq_false] at hvalid
      exact List.all_eq_true.1 hvalid.2
  name_lower := by
    intro bs k h
    simp only [Http.reference, fieldNameOf?] at h
    split at h
    · cases h
    · exact (Option.some.inj h).symm
  isValue_iff _ := rfl
  getAll_new := by
    intro n m h k
    simp only [Http.reference] at h
    split at h
    · cases h
      rfl
    · cases h
  getAll_append := FieldMap.reverse_values_prepend

/-! ## The conversion against the lookups -/

/-- Over a lawful header-map library that grants the room for a list's headers, the header map
answers as the lookups of the list do: it fails exactly at the first header that is refused, for
that header's reason, and otherwise holds under the header name of every query that makes one
the trimmed values of exactly the headers that answer to the query, in order, in ISO-8859-1. -/
theorem headerMap_agrees_with_lookups {http : Http} (hl : http.Lawful) (hs : Headers)
    (hroom : (http.withCapacity? hs.size).isSome) :
    (∀ e, hs.toHeaderMap http = some (.error e) ↔
      ∃ pre h post, hs.entries = pre ++ h :: post ∧ (∀ g ∈ pre, ∀ e', ¬g.Refused http e') ∧
        h.Refused http e) ∧
    ((∃ m, hs.toHeaderMap http = some (.ok m)) ↔ ∀ g ∈ hs.entries, ∀ e, ¬g.Refused http e) ∧
    ∀ m, hs.toHeaderMap http = some (.ok m) → ∀ q k, http.name? (Utf8.encode q) = some k →
      ((hs.getAll q).map Blank.trim).mapM Latin1.encode? = some (http.getAll m k) := by
  obtain ⟨m₀, hm₀⟩ := Option.isSome_iff_exists.1 hroom
  exact ⟨Headers.toHeaderMap_eq_error_iff hl hm₀, Headers.toHeaderMap_isOk_iff hl hm₀,
    fun m hm q k hq => Headers.getAll_toHeaderMap hl hm hq⟩

/-- Three headers, two of them `Content-Type` in different cases, over the reference library. -/
theorem headerMap_agrees_with_lookups_reference :
    let hs : Headers := ⟨[⟨"Content-Type", " text/plain "⟩, ⟨"X-Tag", "1"⟩, ⟨"content-type", "b"⟩]⟩
    Http.reference.Lawful ∧ (Http.reference.withCapacity? hs.size).isSome ∧
    (∀ e, hs.toHeaderMap Http.reference = some (.error e) ↔
      ∃ pre h post, hs.entries = pre ++ h :: post ∧
        (∀ g ∈ pre, ∀ e', ¬g.Refused Http.reference e') ∧ h.Refused Http.reference e) ∧
    ((∃ m, hs.toHeaderMap Http.reference = some (.ok m)) ↔
      ∀ g ∈ hs.entries, ∀ e, ¬g.Refused Http.reference e) ∧
    ∀ m, hs.toHeaderMap Http.reference = some (.ok m) → ∀ q k,
      Http.reference.name? (Utf8.encode q) = some k →
      ((hs.getAll q).map Blank.trim).mapM Latin1.encode? = some (Http.reference.getAll m k) :=
  ⟨Http.reference_lawful, by decide,
    headerMap_agrees_with_lookups Http.reference_lawful _ (by decide)⟩

/-- Headers `a:b` pass the checks of a library that makes `a` a header name; one that refuses
the room for 24577 of them halts the conversion all the same. -/
theorem Headers.toHeaderMap_halts_of_room {http : Http} (ha : http.name? [97] = some "a")
    (hroom : http.withCapacity? 24577 = none) :
    let hs : Headers := ⟨List.replicate 24577 ⟨"a", "b"⟩⟩
    (∀ g ∈ hs.entries, ∀ e, ¬g.Refused http e) ∧ hs.toHeaderMap http = none := by
  intro hs
  have hname : http.nameOf? ⟨"a", "b"⟩ = some "a" := by
    rw [Http.nameOf?, show Utf8.encode (Blank.trim "a") = [97] by decide +kernel, ha]
  have hvalue : (Header.trimmedValue ⟨"a", "b"⟩).toList = ['b'] := by decide +kernel
  have hsize : hs.size = 24577 := List.length_replicate
  refine ⟨fun g hg e hrefused => ?_, by rw [Headers.toHeaderMap, hsize, hroom]; rfl⟩
  rw [List.eq_of_mem_replicate hg] at hrefused
  -- the name makes `a`, and `b` is one ISO-8859-1 value byte
  cases hrefused with
  | name hn => rw [hname] at hn; cases hn
  | notLatin1 _ hbig => simp [hvalue] at hbig
  | value _ _ hbad => simp [hvalue] at hbad; exact absurd hbad (by decide)

/-- Twenty-four thousand five hundred and seventy-seven headers `a:b`: each passes its check,
yet the reference library refuses a map room for them, and the conversion halts instead of
answering a map. -/
theorem headerMap_halts_on_valid_headers :
    let hs : Headers := ⟨List.replicate 24577 ⟨"a", "b"⟩⟩
    (∀ g ∈ hs.entries, ∀ e, ¬g.Refused Http.reference e) ∧ hs.toHeaderMap Http.reference = none :=
  Headers.toHeaderMap_halts_of_room (by decide +kernel) (by decide)

end MimeMultipart
