import LinuxSystem.Utf.Swap
import LinuxSystem.Utf.Truncated

/-!
# The program

`args.c`, `check_bom`, the switch of `get_encoding_function`, `transcribe` and
`main`: what the program makes of a text in a marked file. The `lseek` of `main`
has its arguments out of order and moves descriptor 0, so that every conversion
finds the mark at the start of its input, and reads over it itself.
-/

namespace LinuxSystem.Utf

open Unicode

/-! ## args.c and utf.c -/

/-- `STR_UTF16LE`, `STR_UTF16BE` and `STR_UTF8`. -/
def Format.str : Format → String
  | .UTF16LE => "UTF16LE"
  | .UTF16BE => "UTF16BE"
  | .UTF8 => "UTF8"

/-- `none` is 0. -/
def determineFormat (argument : String) : Option Format :=
  if argument = Format.UTF16LE.str then some .UTF16LE
  else if argument = Format.UTF16BE.str then some .UTF16BE
  else if argument = Format.UTF8.str then some .UTF8
  else none

/-- The `int` that has these bytes, and zeros above them. -/
def intOf (bytes : List UInt8) : Nat := Nat.ofDigits 256 (bytes.map UInt8.toNat)

/-- `none` is an `exit(EXIT_FAILURE)`. -/
def checkBom (infile : List UInt8) : Option Format :=
  let bytes := infile.take 3
  if bytes.length < 3 then none
  else if intOf bytes = Format.UTF8.bom.toNat then some .UTF8
  else
    let bom := intOf (reverseBytes bytes 2)
    if bom % 0x10000 = Format.UTF16LE.bom.toNat then some .UTF16LE
    else if bom % 0x10000 = Format.UTF16BE.bom.toNat then some .UTF16BE
    else none

/-- A `format_t` as an `int`, 0 where there is none. -/
def formatInt : Option Format → Int
  | some format => format.bom.toNat
  | none => 0

/-- An `encoding_from_to_t`. -/
def encodingFromTo (encodingFrom encodingTo : Format) : Int :=
  formatInt (some encodingFrom) - formatInt (some encodingTo)

def transcribe (infile : List UInt8) : Option Conversion := some ⟨infile, infile.length⟩

/-- The switch, with its cases in the order of the source; `none` is NULL. The
buffers are what the locals of the conversion hold first. -/
def getEncodingFunction (buf8 : Utf8Glyph) (buf16 : Utf16Glyph) (encodingFrom : Format)
    (encodingTo : Option Format) : Option (List UInt8 → Option Conversion) :=
  let translate := formatInt (some encodingFrom) - formatInt encodingTo
  if translate = encodingFromTo .UTF8 .UTF16LE then some (fromUtf8ToUtf16le buf8)
  else if translate = encodingFromTo .UTF8 .UTF16BE then some (fromUtf8ToUtf16be buf8)
  else if translate = encodingFromTo .UTF16LE .UTF16BE then
    some fun infile => some (fromUtf16leToUtf16be buf16 infile)
  else if translate = encodingFromTo .UTF16BE .UTF16LE then
    some fun infile => some (fromUtf16beToUtf16le buf16 infile)
  else if translate = encodingFromTo .UTF16BE .UTF8 then some (fromUtf16beToUtf8 buf16)
  else if translate = encodingFromTo .UTF16LE .UTF8 then some (fromUtf16leToUtf8 buf16)
  else if translate = 0 then some transcribe
  else none

/-! ## main.c -/

/-- How the program ends, with what it leaves in the output file. `failure` is
before that file is opened, `crash` is a call through NULL. -/
inductive Exit where
  | failure
  | crash
  | success (outfile : List UInt8)
  deriving DecidableEq, Repr

/-- `main` after `parse_args`. -/
def convert (buf8 : Utf8Glyph) (buf16 : Utf16Glyph) (encodingTo : Option Format)
    (infile : List UInt8) : Exit :=
  match checkBom infile with
  | none => .failure
  | some encodingFrom =>
    match (getEncodingFunction buf8 buf16 encodingFrom encodingTo).bind (· infile) with
    | none => .crash
    | some conversion => .success conversion.outfile

/-- `optarg` is the argument of `-e`. -/
def main (buf8 : Utf8Glyph) (buf16 : Utf16Glyph) (optarg : Option String) (infile : List UInt8) :
    Exit :=
  match optarg with
  | none => convert buf8 buf16 none infile
  | some argument =>
    match determineFormat argument with
    | none => .failure
    | some encodingTo => convert buf8 buf16 (some encodingTo) infile

theorem determineFormat_str (format : Format) : determineFormat format.str = some format := by
  cases format <;> rfl

theorem main_str (buf8 : Utf8Glyph) (buf16 : Utf16Glyph) (encodingTo : Format)
    (infile : List UInt8) :
    main buf8 buf16 (some encodingTo.str) infile = convert buf8 buf16 (some encodingTo) infile := by
  rw [main, determineFormat_str]

/-- The conversion from one format to another. -/
def conversion (buf8 : Utf8Glyph) (buf16 : Utf16Glyph) :
    Format → Format → List UInt8 → Option Conversion
  | .UTF8, .UTF16LE => fromUtf8ToUtf16le buf8
  | .UTF8, .UTF16BE => fromUtf8ToUtf16be buf8
  | .UTF16LE, .UTF16BE => fun infile => some (fromUtf16leToUtf16be buf16 infile)
  | .UTF16BE, .UTF16LE => fun infile => some (fromUtf16beToUtf16le buf16 infile)
  | .UTF16BE, .UTF8 => fromUtf16beToUtf8 buf16
  | .UTF16LE, .UTF8 => fromUtf16leToUtf8 buf16
  | .UTF8, .UTF8 | .UTF16LE, .UTF16LE | .UTF16BE, .UTF16BE => transcribe

/-- The differences tell all the pairs apart. -/
theorem getEncodingFunction_some (buf8 : Utf8Glyph) (buf16 : Utf16Glyph)
    (encodingFrom encodingTo : Format) :
    getEncodingFunction buf8 buf16 encodingFrom (some encodingTo) =
      some (conversion buf8 buf16 encodingFrom encodingTo) := by
  cases encodingFrom <;> cases encodingTo <;> rfl

/-- Without `-e` there is no function, whatever the file is. -/
theorem getEncodingFunction_none (buf8 : Utf8Glyph) (buf16 : Utf16Glyph) (encodingFrom : Format) :
    getEncodingFunction buf8 buf16 encodingFrom none = none := by
  cases encodingFrom <;> rfl

/-! ## Marked files -/

/-- A text in a format, after its byte order mark. -/
def Format.file : Format → List Char → List UInt8
  | .UTF8, s => [0xEF, 0xBB, 0xBF] ++ utf8 s
  | .UTF16LE, s => [0xFF, 0xFE] ++ utf16le s
  | .UTF16BE, s => [0xFE, 0xFF] ++ utf16be s

theorem utf16_ne_nil {s : List Char} (text : s ≠ []) : utf16 s ≠ [] := by
  obtain ⟨c, s, rfl⟩ := List.exists_cons_of_ne_nil text
  rw [utf16, List.flatMap_cons, utf16Units]
  split <;> exact List.cons_ne_nil _ _

theorem intOf_three (a b c : UInt8) :
    intOf [a, b, c] = a.toNat + 256 * b.toNat + 65536 * c.toNat := by
  simp only [intOf, List.map_cons, List.map_nil, Nat.ofDigits_cons, Nat.ofDigits_nil]
  omega

/-- The bytes after the third do not matter, and the third only for UTF-8. -/
theorem checkBom_three (a b c : UInt8) (rest : List UInt8) :
    checkBom (a :: b :: c :: rest) =
      if a.toNat + 256 * b.toNat + 65536 * c.toNat = 0xBFBBEF then some .UTF8
      else if b.toNat + 256 * a.toNat = 0xFFFE then some .UTF16LE
      else if b.toNat + 256 * a.toNat = 0xFEFF then some .UTF16BE
      else none := by
  have lower : intOf [b, a, c] % 0x10000 = b.toNat + 256 * a.toNat := by
    have := a.toNat_lt
    have := b.toNat_lt
    rw [intOf_three]
    omega
  rw [← intOf_three, ← lower]
  rfl

theorem checkBom_utf8 (rest : List UInt8) :
    checkBom (0xEF :: 0xBB :: 0xBF :: rest) = some .UTF8 := by
  rw [checkBom_three, if_pos (by decide)]

theorem checkBom_utf16le (third : UInt8) (rest : List UInt8) :
    checkBom (0xFF :: 0xFE :: third :: rest) = some .UTF16LE := by
  have apart : (0xFF : UInt8).toNat + 256 * (0xFE : UInt8).toNat + 65536 * third.toNat ≠ 0xBFBBEF := by
    simp only [UInt8.reduceToNat]
    omega
  rw [checkBom_three, if_neg apart, if_pos (by decide)]

theorem checkBom_utf16be (third : UInt8) (rest : List UInt8) :
    checkBom (0xFE :: 0xFF :: third :: rest) = some .UTF16BE := by
  have apart : (0xFE : UInt8).toNat + 256 * (0xFF : UInt8).toNat + 65536 * third.toNat ≠ 0xBFBBEF := by
    simp only [UInt8.reduceToNat]
    omega
  rw [checkBom_three, if_neg apart, if_neg (by decide), if_pos (by decide)]

/-- A mark of two bytes takes a third byte to be recognised. -/
def Recognised (encodingFrom : Format) (s : List Char) : Prop := encodingFrom = .UTF8 ∨ s ≠ []

theorem checkBom_file {encodingFrom : Format} {s : List Char}
    (recognised : Recognised encodingFrom s) :
    checkBom (encodingFrom.file s) = some encodingFrom := by
  cases encodingFrom with
  | UTF8 => exact checkBom_utf8 _
  | UTF16LE =>
    have text := utf16_ne_nil (recognised.resolve_left Format.noConfusion)
    obtain ⟨third, rest, eq⟩ := List.exists_cons_of_ne_nil (bytes_ne_nil .little text)
    rw [Format.file, utf16le]
    exact eq ▸ checkBom_utf16le third rest
  | UTF16BE =>
    have text := utf16_ne_nil (recognised.resolve_left Format.noConfusion)
    obtain ⟨third, rest, eq⟩ := List.exists_cons_of_ne_nil (bytes_ne_nil .big text)
    rw [Format.file, utf16be]
    exact eq ▸ checkBom_utf16be third rest

theorem checkBom_unrecognised {encodingFrom : Format} {s : List Char}
    (unrecognised : ¬ Recognised encodingFrom s) : checkBom (encodingFrom.file s) = none := by
  simp only [Recognised, not_or, not_not] at unrecognised
  obtain ⟨narrow, rfl⟩ := unrecognised
  cases encodingFrom with
  | UTF8 => exact absurd rfl narrow
  | UTF16LE | UTF16BE => rfl

/-! ## What becomes of a text -/

/-- Where the conversion of a text is its standard encoding; `lower` is what
`buf.lower_bytes` holds first. -/
def Faithful (lower : UInt16) (encodingFrom encodingTo : Format) (s : List Char) : Prop :=
  match encodingFrom, encodingTo with
  | .UTF8, _ => True
  | .UTF16LE, .UTF16LE | .UTF16BE, .UTF16BE => True
  -- a pair with the first or the last leading surrogate is taken for two characters
  | .UTF16LE, .UTF8 | .UTF16BE, .UTF8 => ∀ c ∈ s, edgeSurrogate c = false
  | .UTF16LE, .UTF16BE => (utf16 s).length % 2 = 0 ∨
      ∃ w ∈ lower :: (seconds (utf16 s)).map reverseWord, followsOn w = false
  | .UTF16BE, .UTF16LE => followsOn lower = false

theorem convert_some {encodingFrom : Format} {infile : List UInt8}
    (bom : checkBom infile = some encodingFrom) (buf8 : Utf8Glyph) (buf16 : Utf16Glyph)
    (encodingTo : Format) (outfile : List UInt8) :
    convert buf8 buf16 (some encodingTo) infile = .success outfile ↔
      ∃ ret, conversion buf8 buf16 encodingFrom encodingTo infile = some ⟨outfile, ret⟩ := by
  rw [convert, bom]
  simp only [getEncodingFunction_some, Option.bind_some]
  cases conversion buf8 buf16 encodingFrom encodingTo infile with
  | none => simp
  | some written =>
    simp only [Exit.success.injEq, Option.some.injEq]
    constructor
    · rintro rfl
      exact ⟨written.ret, rfl⟩
    · rintro ⟨ret, rfl⟩
      rfl

/-- A UTF-8 text comes out in the other encodings. -/
theorem fromUtf8_file (o : ByteOrder) (target : Format) (buf : Utf8Glyph) (s : List Char) :
    fromUtf8 target (codePointToUtf16Glyph o.swap) buf (Format.UTF8.file s) =
      some ⟨writeBom target ++ (utf16 s).flatMap o.bytes, 0⟩ := by
  have written := fromUtf8_points o target _ (chars_lt s) buf
  rwa [writeBom_utf8, ← utf8_eq, ← utf16_eq] at written

/-- A UTF-16 text becomes the code points that its units are read as. -/
theorem fromUtf16_file (o : ByteOrder) (a b : UInt8) (buf : Utf16Glyph) (s : List Char) :
    fromUtf16 o.swap buf ([a, b] ++ (utf16 s).flatMap o.bytes) =
      some ⟨[0xEF, 0xBB, 0xBF] ++ (s.flatMap charPoints).flatMap utf8Units, 0⟩ := by
  have written := fromUtf16_points o a b (utf16 s) (closed_wellFormed (wellFormed_utf16 s)) buf
  rwa [writeBom_utf8, points_utf16] at written

theorem fromUtf16_faithful (o : ByteOrder) (a b : UInt8) (buf : Utf16Glyph) (s : List Char) :
    (∃ ret, fromUtf16 o.swap buf ([a, b] ++ (utf16 s).flatMap o.bytes) =
      some ⟨Format.UTF8.file s, ret⟩) ↔ ∀ c ∈ s, edgeSurrogate c = false := by
  rw [fromUtf16_file, ← points_eq_iff, Format.file]
  simp

theorem swap_faithful (swapped : Conversion) (outfile : List UInt8) :
    (∃ ret, some swapped = some (⟨outfile, ret⟩ : Conversion)) ↔ swapped.outfile = outfile := by
  simp only [Option.some.injEq]
  constructor
  · rintro ⟨ret, rfl⟩
    rfl
  · rintro rfl
    exact ⟨swapped.ret, rfl⟩

theorem conversion_faithful (buf8 : Utf8Glyph) (buf16 : Utf16Glyph) {encodingFrom : Format}
    (encodingTo : Format) {s : List Char} (recognised : Recognised encodingFrom s) :
    (∃ ret, conversion buf8 buf16 encodingFrom encodingTo (encodingFrom.file s) =
      some ⟨encodingTo.file s, ret⟩) ↔ Faithful buf16.lowerBytes encodingFrom encodingTo s := by
  cases encodingFrom with
  | UTF8 =>
    refine iff_of_true ?_ trivial
    cases encodingTo with
    | UTF8 => exact ⟨_, rfl⟩
    | UTF16LE => exact ⟨0, fromUtf8_file .little .UTF16LE buf8 s⟩
    | UTF16BE => exact ⟨0, fromUtf8_file .big .UTF16BE buf8 s⟩
  | UTF16LE =>
    cases encodingTo with
    | UTF8 => exact fromUtf16_faithful .little 0xFF 0xFE buf16 s
    | UTF16LE => exact iff_of_true ⟨_, rfl⟩ trivial
    | UTF16BE => exact (swap_faithful _ _).trans (toBe_iff (utf16 s) buf16)
  | UTF16BE =>
    cases encodingTo with
    | UTF8 => exact fromUtf16_faithful .big 0xFE 0xFF buf16 s
    | UTF16LE =>
      have text := utf16_ne_nil (recognised.resolve_left Format.noConfusion)
      exact (swap_faithful _ _).trans
        ((toLe_iff (utf16 s) buf16).trans (or_iff_right text))
    | UTF16BE => exact iff_of_true ⟨_, rfl⟩ trivial

/-- A text in one format comes out in another exactly when its mark is recognised
and the conversion is faithful; where the mark is not, the program fails. -/
theorem main_converts_iff (buf8 : Utf8Glyph) (buf16 : Utf16Glyph)
    (encodingFrom encodingTo : Format) (s : List Char) :
    (main buf8 buf16 (some encodingTo.str) (encodingFrom.file s) = .success (encodingTo.file s) ↔
      Recognised encodingFrom s ∧ Faithful buf16.lowerBytes encodingFrom encodingTo s) ∧
    (main buf8 buf16 (some encodingTo.str) (encodingFrom.file s) = .failure ↔
      ¬ Recognised encodingFrom s) := by
  rw [main_str]
  by_cases recognised : Recognised encodingFrom s
  · have bom := checkBom_file recognised
    rw [convert_some bom, conversion_faithful buf8 buf16 encodingTo recognised]
    refine ⟨(and_iff_right recognised).symm, iff_of_false ?_ (not_not.mpr recognised)⟩
    rw [convert, bom]
    dsimp only
    split <;> exact Exit.noConfusion
  · have fails : convert buf8 buf16 (some encodingTo) (encodingFrom.file s) = .failure := by
      rw [convert, checkBom_unrecognised recognised]
    rw [fails]
    exact ⟨iff_of_false Exit.noConfusion fun both => recognised both.1,
      iff_of_true rfl recognised⟩

/-- Whatever the encoding of the file, `-e` is not optional. -/
theorem main_without_encoding (buf8 : Utf8Glyph) (buf16 : Utf16Glyph) (infile : List UInt8) :
    main buf8 buf16 none infile = if checkBom infile = none then .failure else .crash := by
  rw [main, convert]
  cases checkBom infile with
  | none => rfl
  | some encodingFrom => simp [getEncodingFunction_none]

end LinuxSystem.Utf
