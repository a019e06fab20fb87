import MimeMultipart.Disposition
import MimeMultipart.Proofs.Utf8
import Mathlib.Data.List.DropRight
/-!
# Reading back a written Content-Disposition

`Disposition.write` writes a disposition type and its parameters as `type; key="value"`, each
value quoted with its quotes and backslashes escaped. Reading such a text back gives the type
trimmed and in lower case, the value of the last `name` parameter, and as filename the decoded
value of the last `filename*` parameter or, if there is none, the value of the last `filename`
parameter (`parse_inverts_write`). Keys are compared trimmed and in lower case; the type must
hold no `;` and a key no `=` or `;`, a `filename` value no `%`, and a `filename*` value must be
`charset'language'text` with charset UTF-8 in any case and the text a percent-encoding of the
UTF-8 bytes of a string (`ExtendedForm`).

The proof follows the reader. One written parameter is read back as one call of `Fields.keep`
(`params_paramText`), so the whole list is read as a fold of `keep` (`params_written`), whose
result is given field by field by the last parameter of each key (`keepAll_written`). A
`filename*` value decodes to its string (`extendedFilename_of_form`) through two facts about
percent-encoding: an encoded text is ASCII, so its UTF-8 bytes are its character codes
(`Encodes.ascii`), and decoding those codes gives the encoded bytes back (`Encodes.decode_codes`).
-/

namespace MimeMultipart

/-! ## Percent-encoded texts -/

namespace Percent

theorem hexDigit_ascii : ∀ (u : Bool) (v : Fin 16), (hexDigit u v).toNat < 0x80 := by decide

theorem hexValue?_hexDigit :
    ∀ (u : Bool) (v : Fin 16), hexValue? (UInt8.ofNat (hexDigit u v).toNat) = some (UInt8.ofNat v) := by
  decide

theorem digits_byte (b : UInt8) : UInt8.ofNat (b.toNat / 16) * 16 + UInt8.ofNat (b.toNat % 16) = b := by
  rw [← UInt8.toNat_inj]
  simp only [UInt8.toNat_add, UInt8.toNat_mul, UInt8.toNat_ofNat', UInt8.reduceToNat, Nat.reducePow]
  have := b.toNat_lt
  omega

theorem code_toNat {c : Char} (h : c.toNat < 0x80) : (UInt8.ofNat c.toNat).toNat = c.toNat := by
  rw [UInt8.toNat_ofNat']
  exact Nat.mod_eq_of_lt (by omega)

theorem Encodes.ascii {e : List Char} {bs : List UInt8} (h : Encodes e bs) :
    ∀ c ∈ e, c.toNat < 0x80 := by
  induction h with
  | nil => simp
  | plain hascii _ _ ih =>
    intro c hc
    rcases List.mem_cons.1 hc with rfl | hc
    · exact hascii
    · exact ih c hc
  | @escaped b _ _ hi lo _ ih =>
    have hb := b.toNat_lt
    intro c hc
    simp only [List.mem_cons] at hc
    rcases hc with rfl | rfl | rfl | hc
    · decide
    · exact hexDigit_ascii hi ⟨b.toNat / 16, by omega⟩
    · exact hexDigit_ascii lo ⟨b.toNat % 16, by omega⟩
    · exact ih c hc

/-- Percent-decoding the codes of a percent-encoded text gives its bytes. -/
theorem Encodes.decode_codes {e : List Char} {bs : List UInt8} (h : Encodes e bs) :
    decode (e.map fun c => UInt8.ofNat c.toNat) = some bs := by
  induction h with
  | nil => rfl
  | @plain c _ _ hascii hpct _ ih =>
    -- a plain character is not `%`, so it stands for itself
    have hne : UInt8.ofNat c.toNat ≠ 37 := by
      intro h
      apply hpct
      have hcode := congrArg UInt8.toNat h
      rw [code_toNat hascii] at hcode
      exact Char.toNat_inj.1 hcode
    rw [List.map_cons, Percent.decode.eq_def]
    simp only [hne, ↓reduceIte, ih, Option.map_some]
  | @escaped b _ _ hi lo _ ih =>
    have hb := b.toNat_lt
    simp only [List.map_cons, Percent.decode, show UInt8.ofNat ('%' : Char).toNat = 37 from rfl, if_true,
      hexValue?_hexDigit hi ⟨b.toNat / 16, by omega⟩, hexValue?_hexDigit lo ⟨b.toNat % 16, by omega⟩,
      ih, Option.map_some, digits_byte]

end Percent

namespace Blank

theorem trimFront_cons_of_blank {c : Char} (h : isBlank c = true) (cs : List Char) :
    trimFront (c :: cs) = trimFront cs := by
  simp [trimFront, h]

theorem trimFront_cons_of_not_blank {c : Char} (h : isBlank c = false) (cs : List Char) :
    trimFront (c :: cs) = c :: cs := by
  simp [trimFront, h]

/-- Past a text that is not all blank, trimming the front stops inside it. -/
theorem trimFront_append {xs : List Char} (h : trimFront xs ≠ []) (ys : List Char) :
    trimFront (xs ++ ys) = trimFront xs ++ ys := by
  unfold trimFront at h ⊢
  rw [List.dropWhile_append, if_neg (by simpa using h)]

theorem trimList_trimFront (cs : List Char) : trimList (trimFront cs) = trimList cs := by
  simp only [trimList, trimFront, List.dropWhile_idempotent]

theorem trimFront_ne_nil {cs : List Char} (h : trimList cs ≠ []) : trimFront cs ≠ [] := by
  intro h'
  apply h
  simp [trimList, h', trimBack]

theorem trimList_subset (cs : List Char) : trimList cs ⊆ cs := by
  intro c hc
  rw [trimList, trimBack, List.mem_reverse] at hc
  have hfront := (List.dropWhile_suffix isBlank).subset hc
  rw [List.mem_reverse] at hfront
  exact (List.dropWhile_suffix isBlank).subset hfront

end Blank

namespace Disposition

/-! ## Lower case and cutting at a character -/

/-- Lower case moves only the letters `A` to `Z`, onto `a` to `z`: a character outside `a` to
`z` is the lower case of itself alone. -/
theorem eq_of_toLower_eq {x y : Char} (hx : x.toNat < 97 ∨ 122 < x.toNat) (h : y.toLower = x) :
    y = x := by
  unfold Char.toLower at h
  split at h
  · rename_i hy
    subst h
    -- the letters `A` to `Z` move by 32, onto `a` to `z`
    simp only [Char.toNat, UInt32.toNat_add, Char.reduceVal, UInt32.reduceSub, UInt32.reduceToNat,
      Nat.reducePow] at hx
    simp only [ge_iff_le, UInt32.le_iff_toNat_le, Char.reduceVal, UInt32.reduceToNat] at hy
    omega
  · exact h

theorem not_mem_lower {x : Char} {cs : List Char} (hx : x.toNat < 97 ∨ 122 < x.toNat)
    (h : x ∉ cs) : x ∉ lower cs := by
  simp only [lower, List.mem_map, not_exists, not_and]
  intro y hy hyx
  exact h (eq_of_toLower_eq hx hyx ▸ hy)

theorem takeUntil_append {stop : Char} {xs : List Char} (h : stop ∉ xs) (ys : List Char) :
    takeUntil stop (xs ++ ys) = (xs ++ (takeUntil stop ys).1, (takeUntil stop ys).2) := by
  have hall : ∀ c ∈ xs, (c != stop) = true := fun c hc => by
    simpa using ne_of_mem_of_not_mem hc h
  simp [takeUntil, List.takeWhile_append_of_pos hall, List.dropWhile_append_of_pos hall]

@[simp] theorem takeUntil_stop (stop : Char) (cs : List Char) :
    takeUntil stop (stop :: cs) = ([], stop :: cs) := by
  simp [takeUntil]

/-! ## The written text -/

/-- A character of a value as written between quotes: a quote or a backslash after a
backslash, any other character as it is. -/
def quotedChar (c : Char) : List Char := if c = '"' || c = '\\' then ['\\', c] else [c]

theorem quote_toList (v : String) :
    (quote v).toList = '"' :: v.toList.flatMap quotedChar ++ ['"'] := by
  have hchar : ∀ c : Char, (if c = '"' || c = '\\' then String.ofList ['\\', c]
      else String.ofList [c]).toList = quotedChar c := by
    intro c
    unfold quotedChar
    split <;> simp
  simp only [quote, String.toList_append, String.toList_join, List.flatMap_map, hchar]
  rfl

def paramText (p : String × String) : List Char :=
  ';' :: ' ' :: p.1.toList ++ '=' :: (quote p.2).toList

theorem write_toList (t : String) (ps : List (String × String)) :
    (write t ps).toList = t.toList ++ ps.flatMap paramText := by
  simp [write, String.toList_join, List.flatMap_map]
  rfl

theorem takeUntil_written (ps : List (String × String)) :
    takeUntil ';' (ps.flatMap paramText) = ([], ps.flatMap paramText) := by
  cases ps with
  | nil => rfl
  | cons p ps => simp [paramText]

/-! ## Reading one parameter -/

theorem quoted_escaped (cs rest acc : List Char) :
    quoted (cs.flatMap quotedChar ++ rest) acc = quoted rest (cs.reverse ++ acc) := by
  induction cs generalizing acc with
  | nil => rfl
  | cons c cs ih =>
    rw [List.flatMap_cons, List.append_assoc, List.reverse_cons, List.append_assoc,
      List.singleton_append]
    by_cases hc : c = '"' ∨ c = '\\'
    · have hq : quotedChar c = ['\\', c] := by simp [quotedChar, hc]
      rw [hq, List.cons_append, List.cons_append, List.nil_append, quoted]
      exact ih (c :: acc)
    · have hq : quotedChar c = [c] := by simp [quotedChar, hc]
      rw [not_or] at hc
      rw [hq, List.singleton_append, quoted]
      · exact ih (c :: acc)
      -- the last equation of `quoted` holds for a character that is neither quote nor backslash
      all_goals simp [hc.1, hc.2]

theorem quoted_close (ps : List (String × String)) (acc : List Char) :
    quoted ('"' :: ps.flatMap paramText) acc = .ok (acc.reverse, ps.flatMap paramText) := by
  simp [quoted, takeUntil_written, Blank.trimList, Blank.trimBack, Blank.trimFront]

theorem value_quote (v : String) (ps : List (String × String)) :
    value ((quote v).toList ++ ps.flatMap paramText) = .ok (v.toList, ps.flatMap paramText) := by
  simp only [quote_toList, value, List.cons_append,
    Blank.trimFront_cons_of_not_blank (show Blank.isBlank '"' = false by decide)]
  simp only [List.append_assoc, List.singleton_append, quoted_escaped, quoted_close,
    List.append_nil, List.reverse_reverse]

/-- A key that reads back as itself: not blank, with no `=` or `;` in it. -/
def PlainKey (k : String) : Prop :=
  Blank.trimList k.toList ≠ [] ∧ '=' ∉ k.toList ∧ ';' ∉ k.toList

instance : DecidablePred PlainKey := fun k =>
  inferInstanceAs (Decidable (Blank.trimList k.toList ≠ [] ∧ '=' ∉ k.toList ∧ ';' ∉ k.toList))

def paramKey (p : String × String) : List Char := lower (Blank.trimList p.1.toList)

/-- Reading a written parameter keeps its key and value and goes on after it. -/
theorem params_paramText (fuel : Nat) {p : String × String} (hkey : PlainKey p.1)
    (ps : List (String × String)) (f : Fields) :
    params (fuel + 1) (paramText p ++ ps.flatMap paramText) f =
      (f.keep (paramKey p) p.2.toList).bind (params fuel (ps.flatMap paramText)) := by
  obtain ⟨hne, heq, hsemi⟩ := hkey
  have hfront := Blank.trimFront_ne_nil hne
  -- the blank after `;` goes with the key's own leading blanks
  have hbody : ∀ X, Blank.trimFront (' ' :: (p.1.toList ++ X)) =
      Blank.trimFront p.1.toList ++ X := by
    intro X
    rw [Blank.trimFront_cons_of_blank (by decide), Blank.trimFront_append hfront]
  have hkeyEq : ('=' : Char) ∉ Blank.trimFront p.1.toList := fun h =>
    heq ((List.dropWhile_suffix _).subset h)
  have hlow : lower (Blank.trimList (Blank.trimFront p.1.toList)) = paramKey p := by
    rw [Blank.trimList_trimFront]; rfl
  have hok : ((paramKey p).isEmpty || (paramKey p).contains ';') = false := by
    have hsemi' : ';' ∉ paramKey p :=
      not_mem_lower (by decide) fun h => hsemi (Blank.trimList_subset _ h)
    simpa [paramKey, lower, hne] using hsemi'
  simp only [paramText, List.cons_append, List.append_assoc]
  rw [params, hbody]
  split
  · rename_i h
    exact absurd h (by simp [hfront])
  · rw [takeUntil_append hkeyEq, takeUntil_stop]
    simp only [List.append_nil, hlow, hok, Bool.false_eq_true, ↓reduceIte, value_quote]
    cases f.keep (paramKey p) p.2.toList <;> rfl

/-! ## Reading all parameters -/

theorem length_le_written (ps : List (String × String)) :
    ps.length ≤ (ps.flatMap paramText).length := by
  induction ps with
  | nil => simp
  | cons p ps ih =>
    simp only [List.length_cons, List.flatMap_cons, List.length_append, paramText,
      List.cons_append]
    omega

/-- Written parameters are read as a fold of `keep` over them, given fuel for each. -/
theorem params_written (ps : List (String × String)) (hkeys : ∀ p ∈ ps, PlainKey p.1) :
    ∀ (fuel : Nat) (f : Fields), ps.length ≤ fuel →
      params fuel (ps.flatMap paramText) f =
        ps.foldlM (fun f p => f.keep (paramKey p) p.2.toList) f := by
  induction ps with
  | nil =>
    intro fuel f _
    cases fuel <;> rfl
  | cons p ps ih =>
    intro fuel f hlen
    obtain ⟨fuel, rfl⟩ : ∃ n, fuel = n + 1 :=
      Nat.exists_eq_add_one.2 (by simp only [List.length_cons] at hlen; omega)
    rw [List.flatMap_cons, params_paramText fuel (hkeys p (by simp)), List.foldlM_cons]
    cases f.keep (paramKey p) p.2.toList with
    | error e => rfl
    | ok f' =>
      exact ih (fun q hq => hkeys q (by simp [hq])) fuel f'
        (by simp only [List.length_cons] at hlen; omega)

/-- The value of the last parameter whose key, trimmed and in lower case, is `key`. -/
def lastValue (key : String) (ps : List (String × String)) : Option String :=
  (ps.reverse.find? fun p => paramKey p == key.toList).map Prod.snd

theorem lastValue_cons (key : String) (p : String × String) (ps : List (String × String)) :
    lastValue key (p :: ps) =
      (lastValue key ps).or (if paramKey p = key.toList then some p.2 else none) := by
  simp only [lastValue, List.reverse_cons, List.find?_append]
  cases List.find? (fun p => paramKey p == key.toList) ps.reverse <;>
    by_cases h : paramKey p = key.toList <;> simp [h]

/-- `v` is an extended filename value `charset'language'text` for the string `s`: the charset
is UTF-8 in any case, the language holds no apostrophe, and the text percent-encodes the UTF-8
bytes of `s`. -/
def ExtendedForm (v s : String) : Prop :=
  ∃ charset lang e, v.toList = charset ++ apostrophe :: lang ++ apostrophe :: e ∧
    lower charset = "utf-8".toList ∧ apostrophe ∉ lang ∧ Percent.Encodes e (Utf8.encode s)

theorem percentDecode_encodes {e : List Char} {s : String} (h : Percent.Encodes e (Utf8.encode s))
    (field : FilenameField) : percentDecode field e = .ok s := by
  rw [percentDecode, Utf8.encode_ofList_ascii e h.ascii, h.decode_codes]
  simp only [Utf8.decode?_encode]

theorem extendedFilename_of_form {v s : String} (h : ExtendedForm v s) :
    extendedFilename v.toList = .ok s := by
  obtain ⟨charset, lang, e, hv, hcs, hlang, he⟩ := h
  -- the charset is `utf-8` up to case, so the first apostrophe ends it
  have hapos : apostrophe ∉ charset := by
    intro hc
    have hlow : apostrophe.toLower ∈ lower charset := List.mem_map_of_mem hc
    rw [hcs] at hlow
    exact absurd hlow (by decide)
  rw [hv, List.append_assoc, extendedFilename, takeUntil_append hapos, List.cons_append,
    takeUntil_stop]
  simp only [List.append_nil, takeUntil_append hlang, takeUntil_stop, hcs,
    beq_self_eq_true, ↓reduceIte, percentDecode_encodes he]

/-- Keeping one parameter sets the field its key names, when a filename value decodes. -/
theorem keep_written (f : Fields) (p : String × String)
    (hplain : paramKey p = "filename".toList → '%' ∉ p.2.toList)
    (hext : paramKey p = "filename*".toList → ∃ s, ExtendedForm p.2 s) :
    ∃ f', f.keep (paramKey p) p.2.toList = .ok f' ∧
      f'.name = (if paramKey p = "name".toList then some p.2 else f.name) ∧
      f'.filename = (if paramKey p = "filename".toList then some p.2 else f.filename) ∧
      f'.extended = (if paramKey p = "filename*".toList then
        (extendedFilename p.2.toList).toOption else f.extended) := by
  by_cases hn : paramKey p = "name".toList
  · refine ⟨{ f with name := some p.2 }, by simp [Fields.keep, hn], ?_⟩
    simp [hn]
  by_cases hf : paramKey p = "filename".toList
  · have hpl : plainFilename p.2.toList = .ok p.2 := by simp [plainFilename, hplain hf]
    refine ⟨{ f with filename := some p.2 }, by simp [Fields.keep, hf, hpl, Except.map], ?_⟩
    simp [hf]
  by_cases he : paramKey p = "filename*".toList
  · obtain ⟨s, hs⟩ := hext he
    have hx := extendedFilename_of_form hs
    refine ⟨{ f with extended := some s }, by simp [Fields.keep, he, hx, Except.map], ?_⟩
    simp [he, hx, Except.toOption]
  · have hkeep : f.keep (paramKey p) p.2.toList = .ok f := by
      simp only [Fields.keep, beq_iff_eq, hn, hf, he, ↓reduceIte]
    exact ⟨f, hkeep, by simp only [hn, hf, he, ↓reduceIte, and_self]⟩

theorem or_ite_fallback {α : Type} (a : Option α) (c : Prop) [Decidable c] (v : α) (x : Option α) :
    a.or (if c then some v else x) = (a.or (if c then some v else none)).or x := by
  cases a <;> by_cases h : c <;> simp [h]

/-- The fold of `keep` over the parameters succeeds, each field holding the value of the last
parameter of its key, or what it held before if there is none. -/
theorem keepAll_written (ps : List (String × String))
    (hplain : ∀ p ∈ ps, paramKey p = "filename".toList → '%' ∉ p.2.toList)
    (hext : ∀ p ∈ ps, paramKey p = "filename*".toList → ∃ s, ExtendedForm p.2 s) (f : Fields) :
    ∃ f', ps.foldlM (fun f p => f.keep (paramKey p) p.2.toList) f = .ok f' ∧
      f'.name = (lastValue "name" ps).or f.name ∧
      f'.filename = (lastValue "filename" ps).or f.filename ∧
      f'.extended = (match lastValue "filename*" ps with
        | some v => (extendedFilename v.toList).toOption
        | none => f.extended) := by
  induction ps generalizing f with
  | nil => exact ⟨f, rfl, rfl, rfl, rfl⟩
  | cons p ps ih =>
    obtain ⟨f₁, hkeep, hname, hfile, hext₁⟩ :=
      keep_written f p (hplain p (by simp)) (hext p (by simp))
    obtain ⟨f', hrest, hname', hfile', hext'⟩ :=
      ih (fun q hq => hplain q (by simp [hq])) (fun q hq => hext q (by simp [hq])) f₁
    refine ⟨f', by rw [List.foldlM_cons, hkeep]; exact hrest, ?_, ?_, ?_⟩
    · rw [hname', hname, lastValue_cons, or_ite_fallback]
    · rw [hfile', hfile, lastValue_cons, or_ite_fallback]
    · rw [hext', hext₁, lastValue_cons]
      cases lastValue "filename*" ps with
      | some v => rfl
      | none =>
        by_cases h : paramKey p = "filename*".toList
        · rw [if_pos h, if_pos h]; rfl
        · rw [if_neg h, if_neg h]; rfl

/-! ## Reading back -/

/-- Reading a written disposition gives its type trimmed and in lower case, the value of the
last `name` parameter, and as filename the string of the last `filename*` parameter or, if
there is none, the value of the last `filename` parameter. Keys are compared trimmed and in
lower case; the type holds no `;`, keys no `=` or `;`, and values may hold any character but
`%` in a `filename`. -/
theorem parse_inverts_write (t : String) (ps : List (String × String))
    (ht : ';' ∉ t.toList) (hkind : Blank.trimList t.toList ≠ [])
    (hkeys : ∀ p ∈ ps, PlainKey p.1)
    (hplain : ∀ p ∈ ps, paramKey p = "filename".toList → '%' ∉ p.2.toList)
    (hext : ∀ p ∈ ps, paramKey p = "filename*".toList → ∃ s, ExtendedForm p.2 s) :
    ∃ d, parse (write t ps) = .ok d ∧ d.kind = String.ofList (lower (Blank.trimList t.toList)) ∧
      d.name = lastValue "name" ps ∧
      (∀ v s, lastValue "filename*" ps = some v → ExtendedForm v s → d.filename = some s) ∧
      (lastValue "filename*" ps = none → d.filename = lastValue "filename" ps) := by
  obtain ⟨f, hfold, hname, hfile, hextended⟩ := keepAll_written ps hplain hext {}
  have hparams :
      params ((ps.flatMap paramText).length + 1) (ps.flatMap paramText) {} = .ok f := by
    rw [params_written ps hkeys _ _ (by have := length_le_written ps; omega), hfold]
  have hkindNe : (lower (Blank.trimList t.toList)).isEmpty = false := by
    simpa [lower] using hkind
  refine ⟨{ kind := String.ofList (lower (Blank.trimList t.toList)), name := f.name
            filename := match f.extended with | some e => some e | none => f.filename },
    ?_, rfl, ?_, ?_, ?_⟩
  · rw [parse, write_toList, takeUntil_append ht, takeUntil_written]
    simp only [List.append_nil, hkindNe, hparams]
    rfl
  · exact hname.trans Option.or_none
  · intro v s hv hs
    rw [hv] at hextended
    simp only [hextended, extendedFilename_of_form hs, Except.toOption]
  · intro hv
    rw [hv] at hextended
    simp only [hextended, hfile]
    exact Option.or_none

/-- The text `caf%C3%a9` of an extended filename is the string `café`. -/
theorem extendedForm_cafe : ExtendedForm "UTF-8\x27fr\x27caf%C3%a9" "café" := by
  have hbytes : Utf8.encode "café" =
      [UInt8.ofNat 'c'.toNat, UInt8.ofNat 'a'.toNat, UInt8.ofNat 'f'.toNat, 0xC3, 0xA9] := by
    rw [Utf8.encode_eq_flatMap]
    decide
  have henc : Percent.Encodes ['c', 'a', 'f', '%', 'C', '3', '%', 'a', '9'] (Utf8.encode "café") := by
    rw [hbytes]
    exact .plain (by decide) (by decide) <| .plain (by decide) (by decide) <|
      .plain (by decide) (by decide) <| .escaped (b := 0xC3) true true <|
      .escaped (b := 0xA9) false false .nil
  exact ⟨"UTF-8".toList, "fr".toList, _, by decide, by decide, by decide, henc⟩

/-- A form-data disposition with a name holding a quote, a backslash and a `;`, a plain and an
extended filename under keys in other cases, and a second name reads back with the second name
and the extended filename. -/
theorem parse_inverts_write_upload :
    parse (write " Form-Data" [("name", "a\"b\\c;d"), (" FileName ", "plain.txt"),
      ("filename*", "UTF-8\x27fr\x27caf%C3%a9"), ("NAME", "last")]) =
      .ok { kind := "form-data", name := some "last", filename := some "café" } := by
  obtain ⟨d, hd, hkind, hname, hfile, -⟩ := parse_inverts_write " Form-Data"
    [("name", "a\"b\\c;d"), (" FileName ", "plain.txt"), ("filename*", "UTF-8\x27fr\x27caf%C3%a9"),
      ("NAME", "last")] (by decide) (by decide) (by decide) (by decide) (by
      intro p hp hk
      simp only [List.mem_cons, List.not_mem_nil, or_false] at hp
      rcases hp with rfl | rfl | rfl | rfl
      · exact absurd hk (by decide)
      · exact absurd hk (by decide)
      · exact ⟨"café", extendedForm_cafe⟩
      · exact absurd hk (by decide))
  have hfile' := hfile _ _ (by decide) extendedForm_cafe
  rw [hd]
  obtain ⟨kind, name, filename⟩ := d
  simp only at hkind hname hfile'
  rw [hkind, hname, hfile']
  decide

end Disposition

end MimeMultipart
