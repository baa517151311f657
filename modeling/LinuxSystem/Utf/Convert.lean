import LinuxSystem.Utf.Model

/-!
# The conversion loops

One loop for each direction; the little- and big-endian members of a family
differ in the byte order mark and in where they swap bytes. A loop carries the
local glyph buffer, which the source never clears on the UTF-8 side, so its
first content is a parameter. `none` is a call through a NULL function pointer.
-/

namespace LinuxSystem.Utf

/-- `read(infile, &buf.bytes[i], count)`. -/
def storeBytes (buf : Utf8Glyph) (i : Nat) : List UInt8 → Utf8Glyph
  | [] => buf
  | b :: bs => storeBytes (buf.setIfInBounds i b) (i + 1) bs

/-- The reads of one turn of the UTF-8 loop: the decoded code point and the
buffer they leave behind. -/
def readUtf8Glyph (buf : Utf8Glyph) (first : UInt8) (infile : List UInt8) :
    Option (CodePoint × Utf8Glyph) := do
  let remaining := remainingUtf8Bytes first
  let buf := storeBytes (storeBytes buf 0 [first]) 1 (infile.take remaining)
  let decode ← getUtf8DecodingFunction (remaining + 1)
  some (decode buf, buf)

/-- The loop of `from_utf8_to_utf16le` and `from_utf8_to_utf16be`. -/
def fromUtf8Loop (toUtf16 : CodePoint → Utf16Glyph × Nat) (buf : Utf8Glyph) :
    List UInt8 → Option Conversion
  | [] => some ⟨[], 0⟩
  | first :: infile => do
    let (codePoint, buf) ← readUtf8Glyph buf first infile
    let (glyph, size) := toUtf16 codePoint
    let rest ← fromUtf8Loop toUtf16 buf (infile.drop (remainingUtf8Bytes first))
    some (rest.after (glyphBytes glyph size))
  termination_by infile => infile.length
  decreasing_by simp only [List.length_drop, List.length_cons]; omega

def fromUtf8 (target : Format) (toUtf16 : CodePoint → Utf16Glyph × Nat) (buf : Utf8Glyph)
    (infile : List UInt8) : Option Conversion := do
  let rest ← fromUtf8Loop toUtf16 buf (infile.drop 3)
  some (rest.after (writeBom target))

def fromUtf8ToUtf16le : Utf8Glyph → List UInt8 → Option Conversion :=
  fromUtf8 .UTF16LE codePointToUtf16leGlyph

def fromUtf8ToUtf16be : Utf8Glyph → List UInt8 → Option Conversion :=
  fromUtf8 .UTF16BE codePointToUtf16beGlyph

/-- The loop of `from_utf16le_to_utf8` and `from_utf16be_to_utf8`; `load` is
what is done to a unit after reading it. -/
def fromUtf16Loop (load : UInt16 → UInt16) (buf : Utf16Glyph) :
    List UInt8 → Option Conversion
  | [] => some ⟨[], 0⟩
  | first :: infile => do
    let buf := { buf with upperBytes := load (storeWord buf.upperBytes (first :: infile.take 1)) }
    let infile := infile.drop 1
    let paired := isUpperSurrogatePair buf
    let buf := if paired then
        { buf with lowerBytes := load (storeWord buf.lowerBytes (infile.take 2)) } else buf
    let infile := if paired then infile.drop 2 else infile
    let (glyph, size) ← codePointToUtf8Glyph (utf16GlyphToCodePoint buf)
    let rest ← fromUtf16Loop load ⟨0, 0⟩ infile
    some (rest.after (glyph.toList.take size))
  termination_by infile => infile.length
  decreasing_by all_goals (split <;> simp only [List.length_drop, List.length_cons] <;> omega)

def fromUtf16 (load : UInt16 → UInt16) (buf : Utf16Glyph) (infile : List UInt8) :
    Option Conversion := do
  let rest ← fromUtf16Loop load ⟨storeWord buf.upperBytes (infile.take 2), buf.lowerBytes⟩
    (infile.drop 2)
  some (rest.after (writeBom .UTF8))

/-- The swap of the units is commented out in the little-endian reader. -/
def fromUtf16leToUtf8 : Utf16Glyph → List UInt8 → Option Conversion := fromUtf16 id

def fromUtf16beToUtf8 : Utf16Glyph → List UInt8 → Option Conversion := fromUtf16 reverseWord

end LinuxSystem.Utf
