import LinuxSystem.Utf.ByteOrders

/-!
# UTF-8 that ends inside a glyph

The reads of the continuation bytes are only tested for an error, so a short
read leaves the old bytes in the buffer and the glyph is decoded all the same.
-/

namespace LinuxSystem.Utf

open Unicode

/-- One turn on the first bytes of a glyph takes all that is left of the file
and writes the units of some code point. -/
theorem fromUtf8Loop_cut (o : ByteOrder) {c : Char} {t : List UInt8}
    (cut : t <+: String.utf8EncodeChar c) (some : t ≠ [])
    (short : t.length < (String.utf8EncodeChar c).length) (buf : Utf8Glyph) :
    ∃ codePoint, fromUtf8Loop (codePointToUtf16Glyph o.swap) buf t =
      Option.some ⟨(glyphUnits codePoint).flatMap o.bytes, 0⟩ := by
  obtain ⟨first, more, units, length, -⟩ := readUtf8Glyph_units c.toNat
    (Nat.lt_trans (char_lt c) (by decide))
  have units : String.utf8EncodeChar c = first :: more := units
  rw [units] at cut short
  cases t with
  | nil => exact absurd rfl some
  | cons b t =>
    obtain ⟨rfl, -⟩ := List.cons_prefix_cons.mp cut
    have taken : t.drop (remainingUtf8Bytes b) = [] := by
      apply List.drop_eq_nil_of_le
      simp only [List.length_cons] at short
      omega
    obtain ⟨codePoint, buf', read⟩ := readUtf8Glyph_returns buf b t
    refine ⟨codePoint, ?_⟩
    rw [fromUtf8Loop, read, ← glyphBytes_glyphUnits]
    simp [taken, fromUtf8Loop, Conversion.after]

/-- What a conversion writes for a text and the start of one glyph more. -/
theorem fromUtf8_cut (o : ByteOrder) (target : Format) (s : List Char) {c : Char} {t : List UInt8}
    (cut : t <+: String.utf8EncodeChar c) (some : t ≠ [])
    (short : t.length < (String.utf8EncodeChar c).length) (buf : Utf8Glyph) :
    ∃ codePoint, fromUtf8 target (codePointToUtf16Glyph o.swap) buf
        (writeBom .UTF8 ++ (utf8 s ++ t)) =
      Option.some ⟨writeBom target ++
        ((utf16 s).flatMap o.bytes ++ (glyphUnits codePoint).flatMap o.bytes), 0⟩ := by
  obtain ⟨buf', text⟩ := fromUtf8Loop_append o _ (chars_lt s) buf t
  obtain ⟨codePoint, last⟩ := fromUtf8Loop_cut o cut some short buf'
  rw [← utf8_eq, ← utf16_eq, last] at text
  refine ⟨codePoint, ?_⟩
  rw [fromUtf8, writeBom_utf8]
  simp [text, Conversion.after]

theorem glyphUnits_ne_nil (codePoint : CodePoint) : glyphUnits codePoint ≠ [] := by
  unfold glyphUnits
  dsimp only
  split <;> exact List.cons_ne_nil _ _

theorem bytes_ne_nil (o : ByteOrder) {us : List UInt16} (some : us ≠ []) : us.flatMap o.bytes ≠ [] := by
  cases us with
  | nil => exact absurd rfl some
  | cons u us => simp [← o.written, littleEndian]

theorem fromUtf8_cut_ne (o : ByteOrder) (target : Format) (s : List Char) {c : Char}
    {t : List UInt8} (cut : t <+: String.utf8EncodeChar c) (some : t ≠ [])
    (short : t.length < (String.utf8EncodeChar c).length) (buf : Utf8Glyph) :
    (fromUtf8 target (codePointToUtf16Glyph o.swap) buf
        ([0xEF, 0xBB, 0xBF] ++ utf8 s ++ t)).map Conversion.outfile ≠
      (fromUtf8 target (codePointToUtf16Glyph o.swap) buf
        ([0xEF, 0xBB, 0xBF] ++ utf8 s)).map Conversion.outfile := by
  obtain ⟨codePoint, longer⟩ := fromUtf8_cut o target s cut some short buf
  have alone := fromUtf8_points o target _ (chars_lt s) buf
  rw [writeBom_utf8] at longer alone
  rw [← utf8_eq, ← utf16_eq] at alone
  rw [List.append_assoc, longer, alone]
  simpa using bytes_ne_nil o (glyphUnits_ne_nil codePoint)

/-- No truncated glyph goes unnoticed in the output: after any text, the start
of a multi-byte glyph adds the units of one glyph to what is written. -/
theorem truncated_invents_text (s : List Char) (c : Char) (t : List UInt8)
    (cut : t <+: String.utf8EncodeChar c) (some : t ≠ [])
    (short : t.length < (String.utf8EncodeChar c).length) (buf : Utf8Glyph) :
    (fromUtf8ToUtf16le buf ([0xEF, 0xBB, 0xBF] ++ utf8 s ++ t)).map Conversion.outfile ≠
      (fromUtf8ToUtf16le buf ([0xEF, 0xBB, 0xBF] ++ utf8 s)).map Conversion.outfile ∧
    (fromUtf8ToUtf16be buf ([0xEF, 0xBB, 0xBF] ++ utf8 s ++ t)).map Conversion.outfile ≠
      (fromUtf8ToUtf16be buf ([0xEF, 0xBB, 0xBF] ++ utf8 s)).map Conversion.outfile :=
  ⟨fromUtf8_cut_ne .little .UTF16LE s cut some short buf,
    fromUtf8_cut_ne .big .UTF16BE s cut some short buf⟩

/-- The first byte of U+00E9 after the letter A. -/
theorem truncated_e_acute :
    (fromUtf8ToUtf16le #v[0, 0, 0, 0] ([0xEF, 0xBB, 0xBF] ++ utf8 ['A'] ++ [0xC3])).map
        Conversion.outfile ≠
      (fromUtf8ToUtf16le #v[0, 0, 0, 0] ([0xEF, 0xBB, 0xBF] ++ utf8 ['A'])).map
        Conversion.outfile ∧
    (fromUtf8ToUtf16be #v[0, 0, 0, 0] ([0xEF, 0xBB, 0xBF] ++ utf8 ['A'] ++ [0xC3])).map
        Conversion.outfile ≠
      (fromUtf8ToUtf16be #v[0, 0, 0, 0] ([0xEF, 0xBB, 0xBF] ++ utf8 ['A'])).map
        Conversion.outfile :=
  truncated_invents_text ['A'] 'é' [0xC3] ⟨[0xA9], rfl⟩ (by decide) (by decide) _

theorem truncated_not_silent :
    ¬ ∀ (s : List Char) (c : Char) (t : List UInt8), t <+: String.utf8EncodeChar c → t ≠ [] →
      t.length < (String.utf8EncodeChar c).length → ∀ buf : Utf8Glyph,
        (fromUtf8ToUtf16le buf ([0xEF, 0xBB, 0xBF] ++ utf8 s ++ t)).map Conversion.outfile =
            (fromUtf8ToUtf16le buf ([0xEF, 0xBB, 0xBF] ++ utf8 s)).map Conversion.outfile ∧
        (fromUtf8ToUtf16be buf ([0xEF, 0xBB, 0xBF] ++ utf8 s ++ t)).map Conversion.outfile =
            (fromUtf8ToUtf16be buf ([0xEF, 0xBB, 0xBF] ++ utf8 s)).map Conversion.outfile := by
  intro silent
  have cut : [0xC3] <+: String.utf8EncodeChar 'é' := ⟨[0xA9], rfl⟩
  have none : [(0xC3 : UInt8)] ≠ [] := by decide
  have short : [0xC3].length < (String.utf8EncodeChar 'é').length := by decide
  exact fromUtf8_cut_ne .little .UTF16LE ['A'] cut none short #v[0, 0, 0, 0]
    (silent ['A'] 'é' [0xC3] cut none short _).1

end LinuxSystem.Utf
