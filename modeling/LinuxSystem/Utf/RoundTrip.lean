import LinuxSystem.Utf.Stream

/-!
# Conversions of whole files

`utf8_to_utf16_correct` compares the converter with the standard encodings.
Converting there and back is exact from UTF-16 (`utf16_survives`), but from
UTF-8 only while no code point has the first or the last leading surrogate,
which `is_upper_surrogate_pair` leaves out (`utf8_survives_iff`).
-/

namespace LinuxSystem.Utf

open Unicode

/-- The file a second conversion makes of the output of a first. -/
def convertTwice (first second : List UInt8 → Option Conversion) (infile : List UInt8) :
    Option (List UInt8) := do
  let there ← first infile
  let back ← second there.outfile
  some back.outfile

theorem writeBom_utf8 : writeBom .UTF8 = [0xEF, 0xBB, 0xBF] := by decide

theorem writeBom_utf16le : writeBom .UTF16LE = [0xFF, 0xFE] := by decide

theorem writeBom_utf16be : writeBom .UTF16BE = [0xFE, 0xFF] := by decide

theorem fromUtf8_points (o : ByteOrder) (target : Format) (vs : List Nat)
    (hv : ∀ v ∈ vs, v < 0x110000) (buf : Utf8Glyph) :
    fromUtf8 target (codePointToUtf16Glyph o.swap) buf (writeBom .UTF8 ++ vs.flatMap utf8Units) =
      some ⟨writeBom target ++ (vs.flatMap utf16Units).flatMap o.bytes, 0⟩ := by
  rw [fromUtf8, writeBom_utf8]
  simp [fromUtf8Loop_points o vs hv, Conversion.after]

theorem fromUtf16_points (o : ByteOrder) (a b : UInt8) (us : List UInt16) (closed : Closed us)
    (buf : Utf16Glyph) :
    fromUtf16 o.swap buf (a :: b :: us.flatMap o.bytes) =
      some ⟨writeBom .UTF8 ++ (points us).flatMap utf8Units, 0⟩ := by
  rw [fromUtf16]
  simp [fromUtf16Loop_points o us closed, Conversion.after]

theorem chars_lt (s : List Char) : ∀ v ∈ s.map Char.toNat, v < 0x110000 := by
  intro v hv
  obtain ⟨c, -, rfl⟩ := List.mem_map.mp hv
  exact char_lt c

/-- On the standard encoding of any text, the converter writes its standard
encoding in UTF-16, in either byte order. -/
theorem utf8_to_utf16_correct (s : List Char) (buf : Utf8Glyph) :
    fromUtf8ToUtf16le buf ([0xEF, 0xBB, 0xBF] ++ utf8 s) = some ⟨[0xFF, 0xFE] ++ utf16le s, 0⟩ ∧
    fromUtf8ToUtf16be buf ([0xEF, 0xBB, 0xBF] ++ utf8 s) = some ⟨[0xFE, 0xFF] ++ utf16be s, 0⟩ := by
  have le := fromUtf8_points .little .UTF16LE _ (chars_lt s) buf
  have be := fromUtf8_points .big .UTF16BE _ (chars_lt s) buf
  rw [writeBom_utf8, writeBom_utf16le] at le
  rw [writeBom_utf8, writeBom_utf16be] at be
  rw [utf8_eq, utf16le, utf16be, utf16_eq]
  exact ⟨le, be⟩

/-! ## There and back from UTF-8 -/

/-- The code points whose leading surrogate is 0xD800 or 0xDBFF. -/
def edgeSurrogate (c : Char) : Bool :=
  (0x10000 ≤ c.toNat && c.toNat ≤ 0x103FF) || 0x10FC00 ≤ c.toNat

/-- What the UTF-16 reader takes for the units of one scalar value: the two
surrogates separately where the leading one is at an edge. -/
def charPoints (c : Char) : List Nat :=
  if edgeSurrogate c then
    [0xD800 + (c.toNat - 0x10000) / 0x400, 0xDC00 + (c.toNat - 0x10000) % 0x400]
  else [c.toNat]

theorem startsPair_ofNat {n : Nat} (hn : n < 0x10000) :
    startsPair (UInt16.ofNat n) = true ↔ 0xD800 < n ∧ n < 0xDBFF := by
  rw [startsPair_iff, UInt16.toNat_ofNat', Nat.mod_eq_of_lt hn]

theorem points_char (c : Char) (rest : List UInt16) :
    points (utf16Units c.toNat ++ rest) = charPoints c ++ points rest := by
  have max := char_lt c
  have scalar := char_not_surrogate c
  have single {n : Nat} (hn : n < 0x10000) (h : n ≤ 0xD800 ∨ 0xDBFF ≤ n) (r : List UInt16) :
      points (UInt16.ofNat n :: r) = n :: points r := by
    rw [points_single (by
      rw [← Bool.not_eq_true, startsPair_ofNat hn]; omega), UInt16.toNat_ofNat',
      Nat.mod_eq_of_lt hn]
  by_cases hb : c.toNat < 0x10000
  · have edge : edgeSurrogate c = false := by simp [edgeSurrogate]; omega
    simp only [utf16Units, hb, charPoints, edge, ↓reduceIte, Bool.false_eq_true, List.cons_append,
      List.nil_append]
    exact single hb (by omega) rest
  simp only [utf16Units, hb, charPoints, ↓reduceIte, List.cons_append, List.nil_append]
  cases edge : edgeSurrogate c with
  | true =>
    have : c.toNat ≤ 0x103FF ∨ 0x10FC00 ≤ c.toNat := by simp [edgeSurrogate] at edge; omega
    rw [single (by omega) (by omega), single (by omega) (by omega)]
    rfl
  | false =>
    have : 0x103FF < c.toNat ∧ c.toNat < 0x10FC00 := by simp [edgeSurrogate] at edge; omega
    rw [points_pair ((startsPair_ofNat (by omega)).mpr (by omega))]
    simp only [pairPoint, UInt16.toNat_ofNat', Bool.false_eq_true, ↓reduceIte, List.cons_append,
      List.nil_append, List.cons.injEq, and_true]
    omega

theorem points_utf16 (s : List Char) : points (utf16 s) = s.flatMap charPoints := by
  induction s with
  | nil => rfl
  | cons c s ih =>
    rw [utf16, List.flatMap_cons, points_char, List.flatMap_cons]
    exact congrArg _ ih

theorem startsPair_of_not_high {u : UInt16} (h : isHigh u = false) : startsPair u = false := by
  rw [← Bool.not_eq_true, isHigh_iff] at h
  rw [← Bool.not_eq_true, startsPair_iff]
  omega

theorem low_not_high {u : UInt16} (h : isLow u = true) : isHigh u = false := by
  rw [isLow_iff] at h
  rw [← Bool.not_eq_true, isHigh_iff]
  omega

/-- A well-formed sequence does not end in a leading surrogate. -/
theorem closed_wellFormed {us : List UInt16} (h : wellFormed us = true) : Closed us := by
  have keep {u : UInt16} {rest : List UInt16} (hu : startsPair u = false) (hr : Closed rest) :
      Closed (u :: rest) := by
    intro w hw
    cases rest with
    | nil => simp at hw; exact hw ▸ hu
    | cons v rest => exact hr w (by simpa [List.getLast?_cons_cons] using hw)
  refine wellFormed_induction (motive := Closed) (by intro u hu; simp at hu) ?_ ?_ us h
  · intro u rest hh _ _ ih
    exact keep (startsPair_of_not_high hh) ih
  · intro u v rest _ hv _ ih w hw
    apply keep (startsPair_of_not_high (low_not_high hv)) ih w
    simpa [List.getLast?_cons_cons] using hw

/-- Each edge code point comes back two bytes longer. -/
theorem length_charPoints (c : Char) :
    ((charPoints c).flatMap utf8Units).length =
      (utf8Units c.toNat).length + if edgeSurrogate c then 2 else 0 := by
  have max := char_lt c
  cases edge : edgeSurrogate c with
  | true =>
    have : 0x10000 ≤ c.toNat := by simp [edgeSurrogate] at edge; omega
    have three {n : Nat} (h : 0xD800 ≤ n) (h' : n ≤ 0xDFFF) : (utf8Units n).length = 3 := by
      rw [utf8Units_three (by omega) (by omega)]; rfl
    rw [utf8Units_four (by omega)]
    simp only [charPoints, edge, ↓reduceIte, List.flatMap_cons, List.flatMap_nil, List.length_append]
    rw [three (by omega) (by omega), three (by omega) (by omega)]
    rfl
  | false => simp [charPoints, edge]

theorem length_points (s : List Char) :
    ((s.flatMap charPoints).flatMap utf8Units).length =
      (utf8 s).length + 2 * s.countP edgeSurrogate := by
  induction s with
  | nil => rfl
  | cons c s ih =>
    have h := length_charPoints c
    rw [List.flatMap_cons, List.flatMap_append, List.length_append, h, ih, utf8_eq, utf8_eq]
    simp only [List.map_cons, List.flatMap_cons, List.length_append, List.countP_cons]
    split <;> omega

theorem points_eq_iff (s : List Char) :
    (s.flatMap charPoints).flatMap utf8Units = utf8 s ↔ ∀ c ∈ s, edgeSurrogate c = false := by
  constructor
  · intro h
    have := congrArg List.length h
    rw [length_points] at this
    have zero : s.countP edgeSurrogate = 0 := by omega
    intro c hc
    simpa using List.countP_eq_zero.mp zero c hc
  · intro h
    have plain : s.flatMap charPoints = s.map Char.toNat := by
      induction s with
      | nil => rfl
      | cons c s ih =>
        simp only [List.mem_cons, forall_eq_or_imp] at h
        simp [charPoints, h.1, ih h.2]
    rw [plain, utf8_eq]

/-- UTF-8 through UTF-16 and back. -/
theorem utf8_there_and_back (o : ByteOrder) {target : Format} {a b : UInt8}
    (bom : writeBom target = [a, b]) (s : List Char) (buf8 : Utf8Glyph) (buf16 : Utf16Glyph) :
    convertTwice (fromUtf8 target (codePointToUtf16Glyph o.swap) buf8) (fromUtf16 o.swap buf16)
        ([0xEF, 0xBB, 0xBF] ++ utf8 s) =
      some ([0xEF, 0xBB, 0xBF] ++ (s.flatMap charPoints).flatMap utf8Units) := by
  have there := fromUtf8_points o target _ (chars_lt s) buf8
  have back := fromUtf16_points o a b (utf16 s) (closed_wellFormed (wellFormed_utf16 s)) buf16
  rw [writeBom_utf8, ← utf8_eq, ← utf16_eq, bom] at there
  rw [writeBom_utf8, points_utf16] at back
  rw [convertTwice, there]
  simp only [Option.bind_eq_bind, Option.bind_some, List.cons_append, List.nil_append] at back ⊢
  rw [back]
  rfl

/-- A text comes back unchanged, in either byte order, exactly when it has no
code point with an edge surrogate. -/
theorem utf8_survives_iff (s : List Char) (buf8 : Utf8Glyph) (buf16 : Utf16Glyph) :
    (convertTwice (fromUtf8ToUtf16le buf8) (fromUtf16leToUtf8 buf16)
        ([0xEF, 0xBB, 0xBF] ++ utf8 s) = some ([0xEF, 0xBB, 0xBF] ++ utf8 s) ↔
      ∀ c ∈ s, edgeSurrogate c = false) ∧
    (convertTwice (fromUtf8ToUtf16be buf8) (fromUtf16beToUtf8 buf16)
        ([0xEF, 0xBB, 0xBF] ++ utf8 s) = some ([0xEF, 0xBB, 0xBF] ++ utf8 s) ↔
      ∀ c ∈ s, edgeSurrogate c = false) := by
  have survives {twice : Option (List UInt8)}
      (h : twice = some ([0xEF, 0xBB, 0xBF] ++ (s.flatMap charPoints).flatMap utf8Units)) :
      twice = some ([0xEF, 0xBB, 0xBF] ++ utf8 s) ↔ ∀ c ∈ s, edgeSurrogate c = false := by
    rw [h, Option.some.injEq, List.append_cancel_left_eq]
    exact points_eq_iff s
  exact ⟨survives (utf8_there_and_back .little writeBom_utf16le s buf8 buf16),
    survives (utf8_there_and_back .big writeBom_utf16be s buf8 buf16)⟩

/-- U+10000 alone comes back as two three-byte surrogates. -/
theorem utf8_first_supplementary_lost :
    ¬ ∀ (s : List Char) (buf8 : Utf8Glyph) (buf16 : Utf16Glyph),
      convertTwice (fromUtf8ToUtf16le buf8) (fromUtf16leToUtf8 buf16)
        ([0xEF, 0xBB, 0xBF] ++ utf8 s) = some ([0xEF, 0xBB, 0xBF] ++ utf8 s) := by
  intro h
  have lost := h [Char.ofNat 0x10000] #v[0, 0, 0, 0] ⟨0, 0⟩
  rw [fromUtf8ToUtf16le, fromUtf16leToUtf8] at lost
  have le := utf8_there_and_back .little writeBom_utf16le [Char.ofNat 0x10000] #v[0, 0, 0, 0] ⟨0, 0⟩
  have := le.symm.trans lost
  revert this
  decide

/-! ## There and back from UTF-16 -/

theorem utf16Units_unit (u : UInt16) : utf16Units u.toNat = [u] := by
  have := u.toNat_lt
  simp [utf16Units]
  omega

theorem utf16Units_pairPoint {u v : UInt16} (hu : startsPair u = true) (hv : isLow v = true) :
    utf16Units (pairPoint u v) = [u, v] := by
  rw [startsPair_iff] at hu
  rw [isLow_iff] at hv
  have large : ¬ pairPoint u v < 0x10000 := by unfold pairPoint; omega
  rw [utf16Units, if_neg large, List.cons.injEq, List.cons.injEq, ← UInt16.toNat_inj,
    ← UInt16.toNat_inj, UInt16.toNat_ofNat', UInt16.toNat_ofNat', pairPoint]
  exact ⟨by omega, by omega, rfl⟩

theorem utf16Units_points {us : List UInt16} (h : wellFormed us = true) :
    (points us).flatMap utf16Units = us := by
  refine wellFormed_induction (motive := fun us => (points us).flatMap utf16Units = us) rfl ?_ ?_ us h
  · intro u rest hh _ _ ih
    rw [points_single (startsPair_of_not_high hh), List.flatMap_cons, ih, utf16Units_unit]
    rfl
  · intro u v rest _ hv _ ih
    cases hu : startsPair u with
    | true => rw [points_pair hu, List.flatMap_cons, ih, utf16Units_pairPoint hu hv]; rfl
    | false =>
      have hv' := startsPair_of_not_high (low_not_high hv)
      rw [points_single hu, points_single hv', List.flatMap_cons, List.flatMap_cons, ih,
        utf16Units_unit, utf16Units_unit]
      rfl

/-- UTF-16 through the program's UTF-8 and back. -/
theorem utf16_there_and_back (o : ByteOrder) {target : Format} {a b : UInt8}
    (bom : writeBom target = [a, b]) {us : List UInt16} (h : wellFormed us = true)
    (buf16 : Utf16Glyph) (buf8 : Utf8Glyph) :
    convertTwice (fromUtf16 o.swap buf16) (fromUtf8 target (codePointToUtf16Glyph o.swap) buf8)
        ([a, b] ++ us.flatMap o.bytes) =
      some ([a, b] ++ us.flatMap o.bytes) := by
  have there := fromUtf16_points o a b us (closed_wellFormed h) buf16
  have back := fromUtf8_points o target (points us) (points_lt us) buf8
  rw [utf16Units_points h, bom] at back
  rw [convertTwice, List.cons_append, List.cons_append, List.nil_append, there]
  simp only [Option.bind_eq_bind, Option.bind_some]
  rw [back]
  rfl

/-- Well-formed UTF-16 comes back unchanged through the program's UTF-8, in
either byte order, even where that UTF-8 holds separate surrogates. -/
theorem utf16_survives (us : List UInt16) (h : wellFormed us = true) (buf16 : Utf16Glyph)
    (buf8 : Utf8Glyph) :
    convertTwice (fromUtf16leToUtf8 buf16) (fromUtf8ToUtf16le buf8)
        ([0xFF, 0xFE] ++ us.flatMap littleEndian) =
      some ([0xFF, 0xFE] ++ us.flatMap littleEndian) ∧
    convertTwice (fromUtf16beToUtf8 buf16) (fromUtf8ToUtf16be buf8)
        ([0xFE, 0xFF] ++ us.flatMap bigEndian) =
      some ([0xFE, 0xFF] ++ us.flatMap bigEndian) :=
  ⟨utf16_there_and_back .little writeBom_utf16le h buf16 buf8,
    utf16_there_and_back .big writeBom_utf16be h buf16 buf8⟩

/-- A pair with the first leading surrogate travels as two separate ones. -/
theorem utf16_survives_edge :
    convertTwice (fromUtf16leToUtf8 ⟨0, 0⟩) (fromUtf8ToUtf16le #v[0, 0, 0, 0])
      ([0xFF, 0xFE] ++ [0xD800, 0xDC00].flatMap littleEndian) =
      some ([0xFF, 0xFE] ++ [0xD800, 0xDC00].flatMap littleEndian) :=
  (utf16_survives [0xD800, 0xDC00] (by decide) ⟨0, 0⟩ #v[0, 0, 0, 0]).1

end LinuxSystem.Utf
