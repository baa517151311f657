import LinuxSystem.Utf.Convert

/-! # What the converter does with one glyph -/

namespace LinuxSystem.Utf

open Unicode

/-! ## Encoding a code point in UTF-8 -/

theorem or_mask (a k v : Nat) : 2 ^ k * a ||| (v &&& (2 ^ k - 1)) = v % 2 ^ k + 2 ^ k * a := by
  rw [Nat.and_two_pow_sub_one_eq_mod,
    ← Nat.two_pow_add_eq_or_of_lt (Nat.mod_lt _ (by positivity)), Nat.add_comm]

/-- A marker in the high bits over the low `k` bits of a code point. -/
theorem marked_byte (a k : Nat) (mask marker : UInt32) (hm : mask.toNat = 2 ^ k - 1)
    (ha : marker.toNat = 2 ^ k * a) (codePoint : CodePoint) :
    (marker ||| (codePoint &&& mask)).toUInt8 =
      UInt8.ofNat (codePoint.toNat % 2 ^ k + 2 ^ k * a) := by
  have h : (marker ||| (codePoint &&& mask)).toNat = codePoint.toNat % 2 ^ k + 2 ^ k * a := by
    rw [UInt32.toNat_or, UInt32.toNat_and, hm, ha, or_mask]
  rw [← UInt8.toNat_inj, UInt32.toNat_toUInt8, h]
  simp

theorem utf8TwoByteEncode_eq (cp : CodePoint) :
    utf8TwoByteEncode cp =
      #v[UInt8.ofNat (cp.toNat / 64 % 32 + 0xC0), UInt8.ofNat (cp.toNat % 64 + 0x80), 0, 0] := by
  simp only [utf8TwoByteEncode, orByte, marked_byte 2 6 0x3F 0x80 rfl rfl,
    marked_byte 6 5 0x1F 0xC0 rfl rfl]
  simp [Nat.shiftRight_eq_div_pow]

theorem utf8ThreeByteEncode_eq (cp : CodePoint) :
    utf8ThreeByteEncode cp =
      #v[UInt8.ofNat (cp.toNat / 4096 % 16 + 0xE0), UInt8.ofNat (cp.toNat / 64 % 64 + 0x80),
         UInt8.ofNat (cp.toNat % 64 + 0x80), 0] := by
  simp only [utf8ThreeByteEncode, orByte, continuationBytes,
    marked_byte 2 6 0x3F 0x80 rfl rfl,
    marked_byte 14 4 0x0F 0xE0 rfl rfl]
  simp [Nat.shiftRight_eq_div_pow, Nat.div_div_eq_div_mul]

theorem utf8FourByteEncode_eq (cp : CodePoint) :
    utf8FourByteEncode cp =
      #v[UInt8.ofNat (cp.toNat / 262144 % 8 + 0xF0), UInt8.ofNat (cp.toNat / 4096 % 64 + 0x80),
         UInt8.ofNat (cp.toNat / 64 % 64 + 0x80), UInt8.ofNat (cp.toNat % 64 + 0x80)] := by
  simp only [utf8FourByteEncode, orByte, continuationBytes,
    marked_byte 2 6 0x3F 0x80 rfl rfl,
    marked_byte 30 3 0x07 0xF0 rfl rfl]
  simp [Nat.shiftRight_eq_div_pow, Nat.div_div_eq_div_mul]

/-- The encoder is never called through NULL, and what it gives to `write` is
the standard layout of the code point. -/
theorem codePointToUtf8Glyph_spec (cp : CodePoint) :
    ∃ glyph size, codePointToUtf8Glyph cp = some (glyph, size) ∧
      glyph.toList.take size = utf8Units cp.toNat := by
  have le (n : UInt32) : cp ≤ n ↔ cp.toNat ≤ n.toNat := UInt32.le_iff_toNat_le
  by_cases h1 : cp.toNat ≤ 0x7F
  · refine ⟨utf8OneByteEncode cp, 1, ?_, ?_⟩
    · simp [codePointToUtf8Glyph, utf8GlyphSizeOfCodePoint, le, h1, getUtf8EncodingFunction]
    · simp [utf8OneByteEncode, utf8Units_one h1]
  by_cases h2 : cp.toNat ≤ 0x7FF
  · refine ⟨utf8TwoByteEncode cp, 2, ?_, ?_⟩
    · simp [codePointToUtf8Glyph, utf8GlyphSizeOfCodePoint, le, h1, h2, getUtf8EncodingFunction]
    · simp [utf8TwoByteEncode_eq, utf8Units_two h1 h2]
  by_cases h3 : cp.toNat ≤ 0xFFFF
  · refine ⟨utf8ThreeByteEncode cp, 3, ?_, ?_⟩
    · simp [codePointToUtf8Glyph, utf8GlyphSizeOfCodePoint, le, h1, h2, h3,
        getUtf8EncodingFunction]
    · simp [utf8ThreeByteEncode_eq, utf8Units_three h2 h3]
  · refine ⟨utf8FourByteEncode cp, 4, ?_, ?_⟩
    · simp [codePointToUtf8Glyph, utf8GlyphSizeOfCodePoint, le, h1, h2, h3,
        getUtf8EncodingFunction]
    · simp [utf8FourByteEncode_eq, utf8Units_four h3]

/-! ## Decoding it again -/

theorem or_field {b k : Nat} (a : Nat) (hb : b < 2 ^ k) : a * 2 ^ k ||| b = a * 2 ^ k + b := by
  rw [Nat.mul_comm, ← Nat.two_pow_add_eq_or_of_lt hb]

theorem or_three (a : Nat) {b c : Nat} (hb : b < 64) (hc : c < 64) :
    a * 2 ^ 12 ||| b * 2 ^ 6 ||| c = a * 2 ^ 12 + b * 2 ^ 6 + c := by
  rw [or_field (k := 12) a (by omega),
    show a * 2 ^ 12 + b * 2 ^ 6 = (a * 2 ^ 6 + b) * 2 ^ 6 by ring, or_field _ hc]

theorem or_four (a : Nat) {b c d : Nat} (hb : b < 64) (hc : c < 64) (hd : d < 64) :
    a * 2 ^ 18 ||| b * 2 ^ 12 ||| c * 2 ^ 6 ||| d = a * 2 ^ 18 + b * 2 ^ 12 + c * 2 ^ 6 + d := by
  rw [or_field (k := 18) a (by omega),
    show a * 2 ^ 18 + b * 2 ^ 12 = (a * 2 ^ 6 + b) * 2 ^ 12 by ring, or_three _ hc hd]

theorem remaining_lt (n : Nat) (b : UInt8) : b.toNat % 2 ^ n < 256 :=
  Nat.lt_of_le_of_lt (Nat.mod_le _ _) b.toNat_lt

theorem remaining_toNat (n : Nat) (b : UInt8) : (remaining n b).toNat = b.toNat % 2 ^ n := by
  have := remaining_lt n b
  simp only [remaining, UInt32.toNat_ofNat']
  exact Nat.mod_eq_of_lt (by omega)

/-- A bit-field shifted left by at most 24 bits loses nothing. -/
theorem field_toNat (n s : Nat) {k : UInt32} (hk : k.toNat = s) (hs : s ≤ 24) (b : UInt8) :
    (remaining n b <<< k).toNat = b.toNat % 2 ^ n * 2 ^ s := by
  have small := remaining_lt n b
  have : b.toNat % 2 ^ n * 2 ^ s < 256 * 2 ^ 24 :=
    Nat.mul_lt_mul_of_lt_of_le small (Nat.pow_le_pow_right (by decide) hs) (by positivity)
  rw [UInt32.toNat_shiftLeft, remaining_toNat, Nat.shiftLeft_eq, hk,
    Nat.mod_eq_of_lt (a := s) (by omega), Nat.mod_eq_of_lt (by omega)]

theorem glyph_get (g : Utf8Glyph) (i : Fin 4) : g.get i = g[i] := rfl

theorem utf8TwoByteDecode_toNat (g : Utf8Glyph) :
    (utf8TwoByteDecode g).toNat = (g.get 0).toNat % 2 ^ 5 * 2 ^ 6 + (g.get 1).toNat % 2 ^ 6 := by
  rw [utf8TwoByteDecode, UInt32.toNat_or, field_toNat 5 6 rfl (by decide), remaining_toNat]
  exact or_field _ (Nat.mod_lt _ (by decide))

theorem utf8ThreeByteDecode_toNat (g : Utf8Glyph) :
    (utf8ThreeByteDecode g).toNat =
      (g.get 0).toNat % 2 ^ 4 * 2 ^ 12 + (g.get 1).toNat % 2 ^ 6 * 2 ^ 6 + (g.get 2).toNat % 2 ^ 6 := by
  rw [utf8ThreeByteDecode, UInt32.toNat_or, UInt32.toNat_or, field_toNat 4 12 rfl (by decide),
    field_toNat 6 6 rfl (by decide), remaining_toNat]
  exact or_three _ (Nat.mod_lt _ (by decide)) (Nat.mod_lt _ (by decide))

theorem utf8FourByteDecode_toNat (g : Utf8Glyph) :
    (utf8FourByteDecode g).toNat =
      (g.get 0).toNat % 2 ^ 3 * 2 ^ 18 + (g.get 1).toNat % 2 ^ 6 * 2 ^ 12 + (g.get 2).toNat % 2 ^ 6 * 2 ^ 6 +
        (g.get 3).toNat % 2 ^ 6 := by
  rw [utf8FourByteDecode, UInt32.toNat_or, UInt32.toNat_or, UInt32.toNat_or,
    field_toNat 3 18 rfl (by decide), field_toNat 6 12 rfl (by decide),
    field_toNat 6 6 rfl (by decide), remaining_toNat]
  exact or_four _ (Nat.mod_lt _ (by decide)) (Nat.mod_lt _ (by decide)) (Nat.mod_lt _ (by decide))

/-- Reading a glyph whose lead byte announces exactly the bytes that follow. -/
theorem readUtf8Glyph_decodes (decode : Utf8Glyph → CodePoint) {first : UInt8}
    {more : List UInt8} {v : Nat} (lead : remainingUtf8Bytes first = more.length)
    (function : getUtf8DecodingFunction (more.length + 1) = some decode)
    (value : ∀ buf, (decode (storeBytes (storeBytes buf 0 [first]) 1 more)).toNat = v)
    (buf : Utf8Glyph) (rest : List UInt8) :
    ∃ buf', readUtf8Glyph buf first (more ++ rest) = some (UInt32.ofNat v, buf') := by
  refine ⟨storeBytes (storeBytes buf 0 [first]) 1 more, ?_⟩
  simp [readUtf8Glyph, lead, function, ← value buf]

/-- The lead byte of a glyph tells how many bytes follow, and reading it gives
the code point back whatever the buffer held before. -/
theorem readUtf8Glyph_units (v : Nat) (hv : v < 0x200000) :
    ∃ first more, utf8Units v = first :: more ∧ remainingUtf8Bytes first = more.length ∧
      ∀ buf rest, ∃ buf', readUtf8Glyph buf first (more ++ rest) = some (UInt32.ofNat v, buf') := by
  by_cases h1 : v ≤ 0x7F
  · have lead : remainingUtf8Bytes (UInt8.ofNat v) = 0 := by
      simp only [remainingUtf8Bytes, bits, UInt8.toNat_ofNat']
      grind
    refine ⟨_, _, utf8Units_one h1, lead, readUtf8Glyph_decodes utf8OneByteDecode lead rfl ?_⟩
    intro buf
    simp [utf8OneByteDecode, storeBytes]
    omega
  by_cases h2 : v ≤ 0x7FF
  · have lead : remainingUtf8Bytes (UInt8.ofNat (v / 64 % 32 + 0xC0)) = 1 := by
      simp only [remainingUtf8Bytes, bits, UInt8.toNat_ofNat']
      grind
    refine ⟨_, _, utf8Units_two h1 h2, lead, readUtf8Glyph_decodes utf8TwoByteDecode lead rfl ?_⟩
    intro buf
    simp [utf8TwoByteDecode_toNat, glyph_get, storeBytes]
    omega
  by_cases h3 : v ≤ 0xFFFF
  · have lead : remainingUtf8Bytes (UInt8.ofNat (v / 4096 % 16 + 0xE0)) = 2 := by
      simp only [remainingUtf8Bytes, bits, UInt8.toNat_ofNat']
      grind
    refine ⟨_, _, utf8Units_three h2 h3, lead,
      readUtf8Glyph_decodes utf8ThreeByteDecode lead rfl ?_⟩
    intro buf
    simp [utf8ThreeByteDecode_toNat, glyph_get, storeBytes]
    omega
  · have lead : remainingUtf8Bytes (UInt8.ofNat (v / 262144 % 8 + 0xF0)) = 3 := by
      simp only [remainingUtf8Bytes, bits, UInt8.toNat_ofNat']
      grind
    refine ⟨_, _, utf8Units_four h3, lead, readUtf8Glyph_decodes utf8FourByteDecode lead rfl ?_⟩
    intro buf
    simp [utf8FourByteDecode_toNat, glyph_get, storeBytes]
    omega

/-! ## UTF-16 units -/

/-- A byte order as the source implements it: what is done to each unit in
memory, and the bytes that then stand in the file. -/
structure ByteOrder where
  swap : UInt16 → UInt16
  bytes : UInt16 → List UInt8
  written : ∀ u, littleEndian (swap u) = bytes u
  involutive : ∀ u, swap (swap u) = u

theorem wordOf_bytes (u : UInt16) : wordOf (UInt8.ofNat u.toNat) (UInt8.ofNat (u.toNat / 256)) = u := by
  rw [← UInt16.toNat_inj]
  have := u.toNat_lt
  simp [wordOf]
  omega

theorem reverseWord_eq (u : UInt16) :
    reverseWord u = wordOf (UInt8.ofNat (u.toNat / 256)) (UInt8.ofNat u.toNat) := rfl

theorem littleEndian_wordOf (lo hi : UInt8) : littleEndian (wordOf lo hi) = [lo, hi] := by
  have := lo.toNat_lt
  have := hi.toNat_lt
  simp [littleEndian, wordOf, ← UInt8.toNat_inj]
  omega

def ByteOrder.little : ByteOrder := ⟨id, littleEndian, fun _ => rfl, fun _ => rfl⟩

def ByteOrder.big : ByteOrder where
  swap := reverseWord
  bytes := bigEndian
  written u := by rw [reverseWord_eq, littleEndian_wordOf]; rfl
  involutive u := by
    have h := littleEndian_wordOf (UInt8.ofNat (u.toNat / 256)) (UInt8.ofNat u.toNat)
    simp only [littleEndian, List.cons.injEq] at h
    rw [reverseWord_eq (reverseWord u), reverseWord_eq u, h.1, h.2.1, wordOf_bytes]

theorem storeWord_bytes (o : ByteOrder) (old u : UInt16) (rest : List UInt8) :
    o.swap (storeWord old ((o.bytes u ++ rest).take 2)) = u := by
  rw [← o.written, littleEndian]
  simp only [List.cons_append, List.nil_append, List.take_succ_cons, List.take_zero, storeWord,
    wordOf_bytes, o.involutive]

theorem glyphBytes_units (o : ByteOrder) {v : Nat} (hv : v < 0x110000) :
    glyphBytes (codePointToUtf16Glyph o.swap (UInt32.ofNat v)).1
      (codePointToUtf16Glyph o.swap (UInt32.ofNat v)).2 = (utf16Units v).flatMap o.bytes := by
  have size : (UInt32.ofNat v).toNat = v := by simp; omega
  by_cases h : v < 0x10000
  · have small : isCodePointSurrogate (UInt32.ofNat v) = false := by
      simp [isCodePointSurrogate, UInt32.le_iff_toNat_le, size, h]
    have unit : (UInt32.ofNat v).toUInt16 = UInt16.ofNat v := by simp
    simp [codePointToUtf16Glyph, small, utf16Units, h, glyphBytes, ← o.written, littleEndian, unit]
  · have large : isCodePointSurrogate (UInt32.ofNat v) = true := by
      simp [isCodePointSurrogate, UInt32.le_iff_toNat_le, size]; omega
    have minus : (UInt32.ofNat v - 0x10000).toNat = v - 0x10000 := by
      rw [UInt32.toNat_sub_of_le _ _ (by simp [UInt32.le_iff_toNat_le, size]; omega), size]
      rfl
    have upper : ((UInt32.ofNat v - 0x10000) >>> 10 + 0xD800).toUInt16 =
        UInt16.ofNat (0xD800 + (v - 0x10000) / 0x400) := by
      rw [← UInt16.toNat_inj, UInt32.toNat_toUInt16, UInt32.toNat_add, UInt32.toNat_shiftRight,
        minus, Nat.shiftRight_eq_div_pow]
      simp
      omega
    have lower : (((UInt32.ofNat v - 0x10000) &&& 0x3FF) + 0xDC00).toUInt16 =
        UInt16.ofNat (0xDC00 + (v - 0x10000) % 0x400) := by
      have mask := Nat.and_two_pow_sub_one_eq_mod (v - 0x10000) 10
      rw [← UInt16.toNat_inj, UInt32.toNat_toUInt16, UInt32.toNat_add, UInt32.toNat_and, minus,
        show UInt32.toNat 0x3FF = 2 ^ 10 - 1 from rfl, mask]
      simp
      omega
    simp [codePointToUtf16Glyph, large, utf16Units, h, glyphBytes, ← o.written, littleEndian,
      upper, lower]

end LinuxSystem.Utf
