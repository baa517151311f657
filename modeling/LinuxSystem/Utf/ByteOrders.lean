import LinuxSystem.Utf.RoundTrip

/-!
# Little- and big-endian conversions agree

The two members of each family do the same on every input, ill-formed and
truncated ones included, apart from the order of the bytes in a UTF-16 unit.
-/

namespace LinuxSystem.Utf

open Unicode

/-- The units of the glyph of any 32-bit code point, in the order of the host. -/
def glyphUnits (codePoint : CodePoint) : List UInt16 :=
  let (glyph, size) := codePointToUtf16leGlyph codePoint
  if size = 4 then [glyph.upperBytes, glyph.lowerBytes] else [glyph.upperBytes]

theorem glyphBytes_glyphUnits (o : ByteOrder) (codePoint : CodePoint) :
    glyphBytes (codePointToUtf16Glyph o.swap codePoint).1
      (codePointToUtf16Glyph o.swap codePoint).2 = (glyphUnits codePoint).flatMap o.bytes := by
  cases large : isCodePointSurrogate codePoint with
  | true =>
    simp [glyphUnits, codePointToUtf16leGlyph, codePointToUtf16Glyph, large, glyphBytes,
      ← o.written, littleEndian]
  | false =>
    simp [glyphUnits, codePointToUtf16leGlyph, codePointToUtf16Glyph, large, glyphBytes,
      ← o.written, littleEndian]

/-- The decoding function is never called through NULL. -/
theorem readUtf8Glyph_returns (buf : Utf8Glyph) (first : UInt8) (infile : List UInt8) :
    ∃ codePoint buf', readUtf8Glyph buf first infile = some (codePoint, buf') := by
  have function : ∃ decode, getUtf8DecodingFunction (remainingUtf8Bytes first + 1) = some decode := by
    unfold remainingUtf8Bytes
    split_ifs <;> exact ⟨_, rfl⟩
  obtain ⟨decode, function⟩ := function
  let buf' := storeBytes (storeBytes buf 0 [first]) 1 (infile.take (remainingUtf8Bytes first))
  exact ⟨decode buf', buf', by simp [readUtf8Glyph, function, buf']⟩

/-- The UTF-8 loop writes one sequence of units, whatever the byte order. -/
theorem fromUtf8Loop_units_of_any (infile : List UInt8) (buf : Utf8Glyph) :
    ∃ units : List UInt16, ∀ o : ByteOrder,
      fromUtf8Loop (codePointToUtf16Glyph o.swap) buf infile =
        some ⟨units.flatMap o.bytes, 0⟩ := by
  induction size : infile.length using Nat.strong_induction_on generalizing infile buf with
  | _ n ih =>
    cases infile with
    | nil => exact ⟨[], fun o => by simp [fromUtf8Loop]⟩
    | cons first infile =>
      obtain ⟨codePoint, buf', read⟩ := readUtf8Glyph_returns buf first infile
      have shorter : (infile.drop (remainingUtf8Bytes first)).length < n := by
        rw [List.length_drop, ← size, List.length_cons]
        omega
      obtain ⟨units, rest⟩ := ih _ shorter _ buf' rfl
      refine ⟨glyphUnits codePoint ++ units, ?_⟩
      intro o
      rw [fromUtf8Loop, read]
      simp [rest o, glyphBytes_glyphUnits, Conversion.after]

theorem fromUtf8_bytes (o : ByteOrder) {target : Format} {mark : UInt16}
    (bom : writeBom target = o.bytes mark) {buf : Utf8Glyph} {infile : List UInt8}
    {units : List UInt16}
    (loop : fromUtf8Loop (codePointToUtf16Glyph o.swap) buf (infile.drop 3) =
      some ⟨units.flatMap o.bytes, 0⟩) :
    fromUtf8 target (codePointToUtf16Glyph o.swap) buf infile =
      some ⟨(mark :: units).flatMap o.bytes, 0⟩ := by
  rw [fromUtf8, loop]
  simp [Conversion.after, bom]

/-- From UTF-16, two files with the same units come out as the same bytes unless
the last unit starts a pair. To UTF-16, the bytes after the mark may be any: what
one conversion writes is a sequence of units, and the other writes the same units
in the other byte order. -/
theorem byte_orders_agree :
    (∀ us : List UInt16, (∀ u, us.getLast? = some u → ¬ (0xD801 ≤ u ∧ u ≤ 0xDBFE)) →
      ∀ bufLe bufBe : Utf16Glyph, ∃ written,
        fromUtf16leToUtf8 bufLe ([0xFF, 0xFE] ++ us.flatMap littleEndian) = some written ∧
        fromUtf16beToUtf8 bufBe ([0xFE, 0xFF] ++ us.flatMap bigEndian) = some written) ∧
    ∀ (bytes : List UInt8) (buf : Utf8Glyph), ∃ units : List UInt16,
      fromUtf8ToUtf16le buf ([0xEF, 0xBB, 0xBF] ++ bytes) =
        some ⟨units.flatMap littleEndian, 0⟩ ∧
      fromUtf8ToUtf16be buf ([0xEF, 0xBB, 0xBF] ++ bytes) =
        some ⟨units.flatMap bigEndian, 0⟩ := by
  constructor
  · intro us last bufLe bufBe
    have closed : Closed us := by
      intro u hu
      have edge := last u hu
      rw [UInt16.le_iff_toNat_le, UInt16.le_iff_toNat_le] at edge
      rw [← Bool.not_eq_true, startsPair_iff]
      simp only [UInt16.reduceToNat] at edge
      omega
    exact ⟨_, fromUtf16_points .little 0xFF 0xFE us closed bufLe,
      fromUtf16_points .big 0xFE 0xFF us closed bufBe⟩
  · intro bytes buf
    obtain ⟨units, loop⟩ := fromUtf8Loop_units_of_any bytes buf
    exact ⟨0xFEFF :: units, fromUtf8_bytes .little (by decide) (loop .little),
      fromUtf8_bytes .big (by decide) (loop .big)⟩

/-- A surrogate pair and one unit more. -/
theorem byte_orders_agree_on_a_pair :
    ∃ written,
      fromUtf16leToUtf8 ⟨0, 0⟩ ([0xFF, 0xFE] ++ [0xD83D, 0xDE00, 0x41].flatMap littleEndian) =
        some written ∧
      fromUtf16beToUtf8 ⟨0, 0⟩ ([0xFE, 0xFF] ++ [0xD83D, 0xDE00, 0x41].flatMap bigEndian) =
        some written := by
  apply byte_orders_agree.1
  intro u last
  obtain rfl : 0x41 = u := Option.some.inj last
  decide

end LinuxSystem.Utf
