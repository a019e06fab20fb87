import MimeMultipart.Text.Utf8
/-!
# Decoding reads back what encoding wrote

`Utf8.decode?` reads back the UTF-8 bytes of every text (`decode?_encode`). The bytes of a text
are the encodings of its characters one after another (`encode_eq_flatMap`), and the bytes of one
character, in each of the four lengths, pass the decoder's checks and give the character back
(`decodeFrom_encodeChar`): a lead byte above `C1`, continuation bytes, and for the four lead bytes
`E0`, `ED`, `F0` and `F4` a second byte in the narrower range that rules out overlong forms,
surrogate halves and code points past U+10FFFF (`secondOk_of`). The bytes of an ASCII text are
its character codes (`encode_ofList_ascii`).
-/

namespace MimeMultipart.Utf8

/-! ## The bytes of a text -/

theorem byteArray_toList_loop (bs : ByteArray) (i : Nat) (r : List UInt8) :
    ByteArray.toList.loop bs i r = r.reverse ++ bs.data.toList.drop i := by
  fun_induction ByteArray.toList.loop bs i r with
  | case1 i r h ih =>
    have hi : i < bs.data.toList.length := by simpa using h
    rw [ih, List.drop_eq_getElem_cons hi]
    simp [ByteArray.get!, h]
  | case2 i r h =>
    rw [List.drop_eq_nil_of_le (by simpa using Nat.le_of_not_lt h)]
    simp

theorem byteArray_toList (bs : ByteArray) : bs.toList = bs.data.toList := by
  simp [ByteArray.toList, byteArray_toList_loop]

theorem encode_eq_flatMap (s : String) : encode s = s.toList.flatMap String.utf8EncodeChar := by
  calc encode s = (String.ofList s.toList).toUTF8.toList := by rw [String.ofList_toList]; rfl
    _ = s.toList.flatMap String.utf8EncodeChar := by
      rw [String.toUTF8_eq_toByteArray, String.toByteArray_ofList, List.utf8Encode,
        byteArray_toList, List.toList_data_toByteArray]

theorem encode_ofList_ascii (cs : List Char) (h : ∀ c ∈ cs, c.toNat < 0x80) :
    encode (String.ofList cs) = cs.map fun c => UInt8.ofNat c.toNat := by
  rw [encode_eq_flatMap, String.toList_ofList]
  induction cs with
  | nil => rfl
  | cons c cs ih =>
    have hc : c.toNat ≤ 0x7F := Nat.le_of_lt_succ (h c List.mem_cons_self)
    rw [List.flatMap_cons, ih fun x hx => h x (List.mem_cons_of_mem _ hx), List.map_cons]
    simp [String.utf8EncodeChar, hc]

/-! ## Decoding, byte by byte -/

theorem isTail_iff (b : UInt8) : isTail b = true ↔ 0x80 ≤ b.toNat ∧ b.toNat < 0xC0 := by
  simp [isTail, UInt8.le_iff_toNat_le, UInt8.lt_iff_toNat_lt]

theorem decodeFrom_one {b : UInt8} (hb : b.toNat < 0x80) (rest : List UInt8) (acc : List Char) :
    decodeFrom (b :: rest) acc = decodeFrom rest (Char.ofNat b.toNat :: acc) := by
  have h1 : b < 0x80 := UInt8.lt_iff_toNat_lt.2 hb
  rw [decodeFrom.eq_def]
  simp only [h1, ↓reduceIte]

theorem decodeFrom_two {b c : UInt8} (hb : 0xC2 ≤ b.toNat ∧ b.toNat < 0xE0)
    (hc : 0x80 ≤ c.toNat ∧ c.toNat < 0xC0) (rest : List UInt8) (acc : List Char) :
    decodeFrom (b :: c :: rest) acc =
      decodeFrom rest (Char.ofNat ((b.toNat % 32) * 64 + c.toNat % 64) :: acc) := by
  have h1 : ¬b < 0x80 := by rw [UInt8.lt_iff_toNat_lt]; simp; omega
  have h2 : ¬b < 0xC2 := by rw [UInt8.lt_iff_toNat_lt]; simp; omega
  have h3 : b < 0xE0 := by rw [UInt8.lt_iff_toNat_lt]; simp; omega
  rw [decodeFrom.eq_def]
  simp only [h1, h2, h3, ↓reduceIte, (isTail_iff c).2 hc, low]

theorem decodeFrom_three {b c d : UInt8} (hb : 0xE0 ≤ b.toNat ∧ b.toNat < 0xF0)
    (hc : secondOk b c = true) (hd : 0x80 ≤ d.toNat ∧ d.toNat < 0xC0)
    (rest : List UInt8) (acc : List Char) :
    decodeFrom (b :: c :: d :: rest) acc =
      decodeFrom rest (Char.ofNat ((b.toNat % 16) * 4096 + c.toNat % 64 * 64 + d.toNat % 64) :: acc) := by
  have h1 : ¬b < 0x80 := by rw [UInt8.lt_iff_toNat_lt]; simp; omega
  have h2 : ¬b < 0xC2 := by rw [UInt8.lt_iff_toNat_lt]; simp; omega
  have h3 : ¬b < 0xE0 := by rw [UInt8.lt_iff_toNat_lt]; simp; omega
  have h4 : b < 0xF0 := by rw [UInt8.lt_iff_toNat_lt]; simp; omega
  rw [decodeFrom.eq_def]
  simp only [h1, h2, h3, h4, ↓reduceIte, hc, (isTail_iff d).2 hd, Bool.and_true, low]

theorem decodeFrom_four {b c d e : UInt8} (hb : 0xF0 ≤ b.toNat ∧ b.toNat < 0xF5)
    (hc : secondOk b c = true) (hd : 0x80 ≤ d.toNat ∧ d.toNat < 0xC0)
    (he : 0x80 ≤ e.toNat ∧ e.toNat < 0xC0) (rest : List UInt8) (acc : List Char) :
    decodeFrom (b :: c :: d :: e :: rest) acc =
      decodeFrom rest (Char.ofNat ((b.toNat % 8) * 262144 + c.toNat % 64 * 4096 +
        d.toNat % 64 * 64 + e.toNat % 64) :: acc) := by
  have h1 : ¬b < 0x80 := by rw [UInt8.lt_iff_toNat_lt]; simp; omega
  have h2 : ¬b < 0xC2 := by rw [UInt8.lt_iff_toNat_lt]; simp; omega
  have h3 : ¬b < 0xE0 := by rw [UInt8.lt_iff_toNat_lt]; simp; omega
  have h4 : ¬b < 0xF0 := by rw [UInt8.lt_iff_toNat_lt]; simp; omega
  have h5 : b < 0xF5 := by rw [UInt8.lt_iff_toNat_lt]; simp; omega
  rw [decodeFrom.eq_def]
  simp only [h1, h2, h3, h4, h5, ↓reduceIte, hc, (isTail_iff d).2 hd, (isTail_iff e).2 he,
    Bool.and_true, low]

/-- A continuation byte passes the check of the byte after a lead byte when it keeps within the
lead byte's narrower range, for the four lead bytes that have one. -/
theorem secondOk_of {b c : UInt8} (hc : 0x80 ≤ c.toNat ∧ c.toNat < 0xC0)
    (hE0 : b.toNat = 0xE0 → 0xA0 ≤ c.toNat) (hED : b.toNat = 0xED → c.toNat < 0xA0)
    (hF0 : b.toNat = 0xF0 → 0x90 ≤ c.toNat) (hF4 : b.toNat = 0xF4 → c.toNat < 0x90) :
    secondOk b c = true := by
  unfold secondOk
  simp only [← UInt8.toNat_inj, UInt8.le_iff_toNat_le, UInt8.lt_iff_toNat_lt, UInt8.reduceToNat]
  split
  · simpa using ⟨hE0 ‹_›, hc.2⟩
  · split
    · simpa using ⟨hc.1, hED ‹_›⟩
    · split
      · simpa using ⟨hF0 ‹_›, hc.2⟩
      · split
        · simpa using ⟨hc.1, hF4 ‹_›⟩
        · exact (isTail_iff c).2 hc

/-- The bytes of one character pass the decoder's checks and give the character back. -/
theorem decodeFrom_encodeChar (c : Char) (rest : List UInt8) (acc : List Char) :
    decodeFrom (String.utf8EncodeChar c ++ rest) acc = decodeFrom rest (c :: acc) := by
  suffices h : decodeFrom (String.utf8EncodeChar c ++ rest) acc =
      decodeFrom rest (Char.ofNat c.toNat :: acc) by rwa [Char.ofNat_toNat] at h
  -- a character is below the surrogates, or above them and below U+110000
  have hv : c.toNat < 0xD800 ∨ (0xDFFF < c.toNat ∧ c.toNat < 0x110000) := c.valid
  have hval : c.val.toNat = c.toNat := rfl
  unfold String.utf8EncodeChar
  simp only [hval]
  generalize c.toNat = v at hv ⊢
  -- every byte written is below 256, so it keeps its value
  have byte : ∀ n, n < 256 → (UInt8.ofNat n).toNat = n := fun n hn => by
    rw [UInt8.toNat_ofNat']
    exact Nat.mod_eq_of_lt hn
  by_cases h1 : v ≤ 0x7F
  · rw [if_pos h1, List.cons_append, List.nil_append,
      decodeFrom_one (by rw [byte v (by omega)]; omega), byte v (by omega)]
  by_cases h2 : v ≤ 0x7FF
  · -- a lead byte `C2` to `DF`, then one continuation byte
    have b1 := byte (v / 64 % 32 + 0xC0) (by omega)
    have b2 := byte (v % 64 + 0x80) (by omega)
    rw [if_neg h1, if_pos h2, List.cons_append, List.cons_append, List.nil_append,
      decodeFrom_two (by rw [b1]; omega) (by rw [b2]; omega), b1, b2]
    exact congrArg (fun n => decodeFrom rest (Char.ofNat n :: acc)) (by omega)
  by_cases h3 : v ≤ 0xFFFF
  · -- a lead byte `E0` to `EF`, then two continuation bytes; below U+D800 after `ED`
    have b1 := byte (v / 4096 % 16 + 0xE0) (by omega)
    have b2 := byte (v / 64 % 64 + 0x80) (by omega)
    have b3 := byte (v % 64 + 0x80) (by omega)
    rw [if_neg h1, if_neg h2, if_pos h3, List.cons_append, List.cons_append, List.cons_append,
      List.nil_append,
      decodeFrom_three (by rw [b1]; omega)
        (secondOk_of (by rw [b2]; omega) (by rw [b1, b2]; omega) (by rw [b1, b2]; omega)
          (by rw [b1]; omega) (by rw [b1]; omega))
        (by rw [b3]; omega), b1, b2, b3]
    exact congrArg (fun n => decodeFrom rest (Char.ofNat n :: acc)) (by omega)
  -- a lead byte `F0` to `F4`, then three continuation bytes; below U+110000 after `F4`
  have b1 := byte (v / 262144 % 8 + 0xF0) (by omega)
  have b2 := byte (v / 4096 % 64 + 0x80) (by omega)
  have b3 := byte (v / 64 % 64 + 0x80) (by omega)
  have b4 := byte (v % 64 + 0x80) (by omega)
  rw [if_neg h1, if_neg h2, if_neg h3, List.cons_append, List.cons_append, List.cons_append,
    List.cons_append, List.nil_append,
    decodeFrom_four (by rw [b1]; omega)
      (secondOk_of (by rw [b2]; omega) (by rw [b1]; omega) (by rw [b1]; omega)
        (by rw [b1, b2]; omega) (by rw [b1, b2]; omega))
      (by rw [b3]; omega) (by rw [b4]; omega), b1, b2, b3, b4]
  exact congrArg (fun n => decodeFrom rest (Char.ofNat n :: acc)) (by omega)

/-- Decoding the encodings of characters after a decoded prefix appends the characters. -/
theorem decodeFrom_flatMap (cs acc : List Char) :
    decodeFrom (cs.flatMap String.utf8EncodeChar) acc = some (acc.reverse ++ cs) := by
  induction cs generalizing acc with
  | nil => simp [decodeFrom]
  | cons c cs ih =>
    rw [List.flatMap_cons, decodeFrom_encodeChar, ih]
    simp

/-- Decoding the UTF-8 bytes of a text gives the text back. -/
theorem decode?_encode (s : String) : decode? (encode s) = some s := by
  rw [decode?, decodeChars, encode_eq_flatMap, decodeFrom_flatMap]
  simp [String.ofList_toList]

end MimeMultipart.Utf8
