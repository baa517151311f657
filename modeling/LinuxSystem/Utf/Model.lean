import LinuxSystem.Base.Unicode

/-!
# The UTF converter

`utf.h`, `wrappers.c`, `utf.c`, `utf8.c`, `utf16le.c` and `utf16be.c` on a
little-endian host. A file is the list of its bytes; `read` returns the
requested count except at the end of the file, and `write` is complete.
-/

namespace LinuxSystem.Utf

/-- `code_point_t`. -/
abbrev CodePoint := UInt32

/-- `utf8_glyph_t`: a glyph of `n` bytes uses the first `n`. -/
abbrev Utf8Glyph := Vector UInt8 4

/-- `utf16_glyph_t`. -/
structure Utf16Glyph where
  upperBytes : UInt16
  lowerBytes : UInt16
  deriving DecidableEq, Repr

/-- `format_t`: the byte order mark each format starts with. -/
inductive Format
  | UTF16LE
  | UTF16BE
  | UTF8
  deriving DecidableEq, Repr

def Format.bom : Format → UInt32
  | UTF16LE => 0xFFFE
  | UTF16BE => 0xFEFF
  | UTF8 => 0xBFBBEF

/-- What a conversion wrote and the `int` it returned. -/
structure Conversion where
  outfile : List UInt8
  ret : Int
  deriving DecidableEq, Repr

/-- What is written before the rest. -/
def Conversion.after (written : List UInt8) (rest : Conversion) : Conversion :=
  { rest with outfile := written ++ rest.outfile }

/-- The bytes of an `int` in memory. -/
def intBytes (n : UInt32) : List UInt8 :=
  [UInt8.ofNat n.toNat, UInt8.ofNat (n.toNat / 256), UInt8.ofNat (n.toNat / 65536),
   UInt8.ofNat (n.toNat / 16777216)]

/-- The value of two bytes in memory. -/
def wordOf (lo hi : UInt8) : UInt16 := UInt16.ofNat (lo.toNat + 256 * hi.toNat)

/-- `read` of at most two bytes into a 16-bit field; a short read leaves the
rest of the field as it was. -/
def storeWord (old : UInt16) : List UInt8 → UInt16
  | [] => old
  | [lo] => wordOf lo (UInt8.ofNat (old.toNat / 256))
  | lo :: hi :: _ => wordOf lo hi

/-! ## wrappers.c -/

def swapBytes (ptr : List UInt8) (i j : Nat) : List UInt8 :=
  (ptr.set i (ptr.getD j 0)).set j (ptr.getD i 0)

def reverseBytesFrom : Nat → Nat → List UInt8 → List UInt8
  | 0, _, ptr => ptr
  | i + 1, j, ptr => if j < i + 1 then reverseBytesFrom i (j + 1) (swapBytes ptr (i + 1) j) else ptr

def reverseBytes (bufp : List UInt8) (count : Nat) : List UInt8 :=
  reverseBytesFrom (count - 1) 0 bufp

/-- `reverse_bytes(&word, 2)`. -/
def reverseWord (u : UInt16) : UInt16 := storeWord u (reverseBytes (Unicode.littleEndian u) 2)

/-- The byte order mark as the conversions write it: `reverse_bytes(&bom, 2)`
for the two-byte ones, the plain `int` for UTF-8. -/
def writeBom : Format → List UInt8
  | .UTF16LE => (reverseBytes (intBytes Format.UTF16LE.bom) 2).take 2
  | .UTF16BE => (reverseBytes (intBytes Format.UTF16BE.bom) 2).take 2
  | .UTF8 => (intBytes Format.UTF8.bom).take 3

/-! ## utf8_byte_t -/

/-- The low bit-field of a byte, `n` bits wide. -/
def remaining (n : Nat) (b : UInt8) : CodePoint := UInt32.ofNat (b.toNat % 2 ^ n)

/-- The bit-field above the low `n` bits. -/
def bits (n : Nat) (b : UInt8) : Nat := b.toNat / 2 ^ n

def remainingUtf8Bytes (firstByte : UInt8) : Nat :=
  if bits 3 firstByte = 0x1E then 3
  else if bits 4 firstByte = 0xE then 2
  else if bits 5 firstByte = 0x6 then 1
  else 0

/-! ## UTF-8 decoding -/

def utf8OneByteDecode (glyph : Utf8Glyph) : CodePoint := glyph[0].toUInt32

def utf8TwoByteDecode (glyph : Utf8Glyph) : CodePoint :=
  remaining 5 glyph[0] <<< 6 ||| remaining 6 glyph[1]

def utf8ThreeByteDecode (glyph : Utf8Glyph) : CodePoint :=
  remaining 4 glyph[0] <<< 12 ||| remaining 6 glyph[1] <<< 6 ||| remaining 6 glyph[2]

def utf8FourByteDecode (glyph : Utf8Glyph) : CodePoint :=
  remaining 3 glyph[0] <<< 18 ||| remaining 6 glyph[1] <<< 12 ||| remaining 6 glyph[2] <<< 6 |||
    remaining 6 glyph[3]

/-- `none` is the NULL function pointer. -/
def getUtf8DecodingFunction : Nat → Option (Utf8Glyph → CodePoint)
  | 1 => some utf8OneByteDecode
  | 2 => some utf8TwoByteDecode
  | 3 => some utf8ThreeByteDecode
  | 4 => some utf8FourByteDecode
  | _ => none

/-! ## UTF-8 encoding -/

def utf8GlyphSizeOfCodePoint (codePoint : CodePoint) : Nat :=
  if codePoint ≤ 0x7F then 1
  else if codePoint ≤ 0x7FF then 2
  else if codePoint ≤ 0xFFFF then 3
  else 4

/-- `ret.bytes[i].byte |= buf`. -/
def orByte (ret : Utf8Glyph) (i : Nat) (buf : CodePoint) : Utf8Glyph :=
  ret.setIfInBounds i (ret[i]! ||| buf.toUInt8)

/-- The loop of the three and four byte encoders: continuation bytes from
index `i` down to 1. -/
def continuationBytes : Nat → CodePoint → Utf8Glyph → CodePoint × Utf8Glyph
  | 0, codePoint, ret => (codePoint, ret)
  | i + 1, codePoint, ret =>
    continuationBytes i (codePoint >>> 6) (orByte ret (i + 1) (0x80 ||| (codePoint &&& 0x3F)))

/-- The bytes after the first are not initialised in the source, nor written. -/
def utf8OneByteEncode (codePoint : CodePoint) : Utf8Glyph := #v[codePoint.toUInt8, 0, 0, 0]

def utf8TwoByteEncode (codePoint : CodePoint) : Utf8Glyph :=
  let ret := orByte #v[0, 0, 0, 0] 1 (0x80 ||| (codePoint &&& 0x3F))
  let codePoint : CodePoint := codePoint >>> 6
  orByte ret 0 (0xC0 ||| (codePoint &&& 0x1F))

def utf8ThreeByteEncode (codePoint : CodePoint) : Utf8Glyph :=
  let (codePoint, ret) := continuationBytes 2 codePoint #v[0, 0, 0, 0]
  orByte ret 0 (0xE0 ||| (codePoint &&& 0x0F))

def utf8FourByteEncode (codePoint : CodePoint) : Utf8Glyph :=
  let (codePoint, ret) := continuationBytes 3 codePoint #v[0, 0, 0, 0]
  orByte ret 0 (0xF0 ||| (codePoint &&& 0x07))

/-- `none` is the NULL function pointer. -/
def getUtf8EncodingFunction : Nat → Option (CodePoint → Utf8Glyph)
  | 1 => some utf8OneByteEncode
  | 2 => some utf8TwoByteEncode
  | 3 => some utf8ThreeByteEncode
  | 4 => some utf8FourByteEncode
  | _ => none

/-- A call through NULL would give `none`. -/
def codePointToUtf8Glyph (codePoint : CodePoint) : Option (Utf8Glyph × Nat) :=
  let size := utf8GlyphSizeOfCodePoint codePoint
  (getUtf8EncodingFunction size).map fun encode => (encode codePoint, size)

/-! ## UTF-16 -/

/-- Despite the name: the code points that need a surrogate pair. -/
def isCodePointSurrogate (codePoint : CodePoint) : Bool := 0x10000 ≤ codePoint

def isUpperSurrogatePair (glyph : Utf16Glyph) : Bool :=
  0xD800 < glyph.upperBytes && glyph.upperBytes < 0xDBFF

def isLowerSurrogatePair (glyph : Utf16Glyph) : Bool :=
  0xDC00 < glyph.lowerBytes && glyph.lowerBytes < 0xDFFF

def utf16GlyphToCodePoint (glyph : Utf16Glyph) : CodePoint :=
  if !isUpperSurrogatePair glyph then glyph.upperBytes.toUInt32
  else
    ((glyph.upperBytes.toUInt32 - 0xD800) <<< 10 |||
      ((glyph.lowerBytes.toUInt32 - 0xDC00) &&& 0x3FF)) + 0x10000

/-- The glyph of a code point and its size, each unit stored through `store`. -/
def codePointToUtf16Glyph (store : UInt16 → UInt16) (codePoint : CodePoint) : Utf16Glyph × Nat :=
  if isCodePointSurrogate codePoint then
    let codePoint := codePoint - 0x10000
    (⟨store ((codePoint >>> 10) + 0xD800).toUInt16, store ((codePoint &&& 0x3FF) + 0xDC00).toUInt16⟩, 4)
  else (⟨store codePoint.toUInt16, 0⟩, 2)

def codePointToUtf16leGlyph : CodePoint → Utf16Glyph × Nat := codePointToUtf16Glyph id

def codePointToUtf16beGlyph : CodePoint → Utf16Glyph × Nat := codePointToUtf16Glyph reverseWord

/-- The bytes `write` takes from a glyph in memory. -/
def glyphBytes (glyph : Utf16Glyph) (size : Nat) : List UInt8 :=
  (Unicode.littleEndian glyph.upperBytes ++ Unicode.littleEndian glyph.lowerBytes).take size

end LinuxSystem.Utf
