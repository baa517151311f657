import LinuxSystem.Utf.RoundTrip

/-!
# Conversion between the two byte orders

Both loops test `is_lower_surrogate_pair` on a half they have not read yet: the
local's first content, then the second unit of the pair before it. A file is
only swapped while that test does not fire at the wrong moment.
-/

namespace LinuxSystem.Utf

open Unicode

/-- The loop of `from_utf16le_to_utf16be`. -/
def fromUtf16leToUtf16beLoop (buf : Utf16Glyph) : List UInt8 → Conversion
  | [] => ⟨[], 0⟩
  | first :: infile =>
    let buf := { buf with
      upperBytes := reverseWord (storeWord buf.upperBytes (first :: infile.take 1)) }
    let infile := infile.drop 1
    if isLowerSurrogatePair buf then
      let buf := { buf with lowerBytes := reverseWord (storeWord buf.lowerBytes (infile.take 2)) }
      (fromUtf16leToUtf16beLoop buf (infile.drop 2)).after (glyphBytes buf 4)
    else (fromUtf16leToUtf16beLoop buf infile).after (glyphBytes buf 2)
  termination_by infile => infile.length
  decreasing_by all_goals (simp only [List.length_drop, List.length_cons]; omega)

/-- The loop of `from_utf16be_to_utf16le`. `bytes_read` gets the value of
`read(..) > 0` here, so a second unit that is there ends the loop with 1. -/
def fromUtf16beToUtf16leLoop (buf : Utf16Glyph) : List UInt8 → Conversion
  | [] => ⟨[], 0⟩
  | first :: infile =>
    let buf := { buf with
      upperBytes := reverseWord (storeWord buf.upperBytes (first :: infile.take 1)) }
    let infile := infile.drop 1
    if isLowerSurrogatePair buf then
      if 0 < (infile.take 2).length then ⟨[], 1⟩
      else
        let buf := { buf with lowerBytes := reverseWord (storeWord buf.lowerBytes (infile.take 2)) }
        (fromUtf16beToUtf16leLoop buf (infile.drop 2)).after (glyphBytes buf 4)
    else (fromUtf16beToUtf16leLoop buf infile).after (glyphBytes buf 2)
  termination_by infile => infile.length
  decreasing_by all_goals (simp only [List.length_drop, List.length_cons]; omega)

def fromUtf16leToUtf16be (buf : Utf16Glyph) (infile : List UInt8) : Conversion :=
  (fromUtf16leToUtf16beLoop { buf with upperBytes := storeWord buf.upperBytes (infile.take 2) }
    (infile.drop 2)).after (writeBom .UTF16BE)

def fromUtf16beToUtf16le (buf : Utf16Glyph) (infile : List UInt8) : Conversion :=
  (fromUtf16beToUtf16leLoop { buf with upperBytes := storeWord buf.upperBytes (infile.take 2) }
    (infile.drop 2)).after (writeBom .UTF16LE)

/-- The values of `lower_bytes` that make a loop read a second unit. -/
def followsOn (lower : UInt16) : Bool := 0xDC00 < lower && lower < 0xDFFF

/-! ## Little-endian to big-endian -/

theorem littleEndian_reverseWord (u : UInt16) : littleEndian (reverseWord u) = bigEndian u :=
  ByteOrder.big.written u

/-- A unit in memory, for the loops that read two bytes by pattern. -/
theorem two_bytes (o : ByteOrder) (u : UInt16) : ∃ a b, o.bytes u = [a, b] :=
  ⟨_, _, (o.written u).symm⟩

theorem storeWord_little (old u : UInt16) (rest : List UInt8) :
    storeWord old ((littleEndian u ++ rest).take 2) = u :=
  storeWord_bytes .little old u rest

theorem leToBe_single (upper : UInt16) {lower : UInt16} (test : followsOn lower = false)
    (u : UInt16) (rest : List UInt8) :
    fromUtf16leToUtf16beLoop ⟨upper, lower⟩ (littleEndian u ++ rest) =
      (fromUtf16leToUtf16beLoop ⟨reverseWord u, lower⟩ rest).after (bigEndian u) := by
  obtain ⟨a, b, hu⟩ : ∃ a b, littleEndian u = [a, b] := two_bytes .little u
  have load := storeWord_little upper u rest
  have single (w : UInt16) : isLowerSurrogatePair ⟨w, lower⟩ = false := test
  rw [hu] at load ⊢
  rw [List.cons_append, List.cons_append, List.nil_append, fromUtf16leToUtf16beLoop]
  simp only [List.take_succ_cons, List.take_zero, List.cons_append, List.nil_append] at load ⊢
  simp [load, single, glyphBytes, ← littleEndian_reverseWord]
  rfl

/-- A turn that reads a second unit, or nothing where the file ends: then the
half it writes is the old one, swapped. -/
theorem leToBe_pair (upper : UInt16) {lower : UInt16} (test : followsOn lower = true)
    (u : UInt16) (rest : List UInt8) :
    fromUtf16leToUtf16beLoop ⟨upper, lower⟩ (littleEndian u ++ rest) =
      (fromUtf16leToUtf16beLoop
        ⟨reverseWord u, reverseWord (storeWord lower (rest.take 2))⟩ (rest.drop 2)).after
        (bigEndian u ++ bigEndian (storeWord lower (rest.take 2))) := by
  obtain ⟨a, b, hu⟩ : ∃ a b, littleEndian u = [a, b] := two_bytes .little u
  have load := storeWord_little upper u rest
  have pair (w : UInt16) : isLowerSurrogatePair ⟨w, lower⟩ = true := test
  rw [hu] at load ⊢
  rw [List.cons_append, List.cons_append, List.nil_append, fromUtf16leToUtf16beLoop]
  simp only [List.take_succ_cons, List.take_zero, List.cons_append, List.nil_append] at load ⊢
  simp [load, pair, glyphBytes, ← littleEndian_reverseWord]
  rfl

/-- What the loop writes after the swapped file. -/
def staleUnit (lower : UInt16) : List UInt16 → List UInt8
  | [] => []
  | [_] => if followsOn lower then bigEndian lower else []
  | _ :: v :: rest => if followsOn lower then staleUnit (reverseWord v) rest else []

theorem leToBe_singles (us : List UInt16) (upper : UInt16) {lower : UInt16}
    (test : followsOn lower = false) :
    (fromUtf16leToUtf16beLoop ⟨upper, lower⟩ (us.flatMap littleEndian)).outfile =
      us.flatMap bigEndian := by
  induction us generalizing upper with
  | nil => simp [fromUtf16leToUtf16beLoop]
  | cons u us ih =>
    rw [List.flatMap_cons, List.flatMap_cons, leToBe_single upper test, Conversion.after, ih]

theorem leToBe_outfile (lower : UInt16) (us : List UInt16) (upper : UInt16) :
    (fromUtf16leToUtf16beLoop ⟨upper, lower⟩ (us.flatMap littleEndian)).outfile =
      us.flatMap bigEndian ++ staleUnit lower us := by
  induction lower, us using staleUnit.induct generalizing upper with
  | case1 => simp [fromUtf16leToUtf16beLoop, staleUnit]
  | case2 lower u test =>
    -- the file ends where the second unit should be
    have turn := leToBe_pair upper test u []
    rw [List.append_nil] at turn
    simp [turn, fromUtf16leToUtf16beLoop, Conversion.after, storeWord, staleUnit, test]
  | case3 lower u test =>
    have test : followsOn lower = false := by simpa using test
    simpa [staleUnit, test] using leToBe_singles [u] upper test
  | case4 lower u v rest test ih =>
    have turn := leToBe_pair upper test u (littleEndian v ++ rest.flatMap littleEndian)
    have second : (littleEndian v ++ rest.flatMap littleEndian).drop 2 =
        rest.flatMap littleEndian := by
      obtain ⟨c, d, hv⟩ : ∃ c d, littleEndian v = [c, d] := two_bytes .little v
      simp [hv]
    rw [storeWord_little, second] at turn
    simp [turn, Conversion.after, ih, staleUnit, test]
  | case5 lower u v rest test =>
    have test : followsOn lower = false := by simpa using test
    simpa [staleUnit, test] using leToBe_singles (u :: v :: rest) upper test

/-- The units at odd positions. -/
def seconds : List UInt16 → List UInt16
  | _ :: v :: rest => v :: seconds rest
  | _ => []

theorem littleEndian_ne_nil (u : UInt16) : littleEndian u ≠ [] := List.cons_ne_nil _ _

theorem bigEndian_ne_nil (u : UInt16) : bigEndian u ≠ [] := List.cons_ne_nil _ _

theorem staleUnit_eq_nil_iff (lower : UInt16) (us : List UInt16) :
    staleUnit lower us = [] ↔
      us.length % 2 = 0 ∨ ∃ w ∈ lower :: (seconds us).map reverseWord, followsOn w = false := by
  induction lower, us using staleUnit.induct with
  | case1 => simp [staleUnit]
  | case2 lower u test => simp [staleUnit, seconds, test, bigEndian_ne_nil]
  | case3 lower u test => simp [staleUnit, test]
  | case4 lower u v rest test ih =>
    have parity : (u :: v :: rest).length % 2 = rest.length % 2 := by
      simp only [List.length_cons]
      omega
    rw [staleUnit, if_pos test, ih, parity]
    simp [seconds, test]
  | case5 lower u v rest test =>
    have test : followsOn lower = false := by simpa using test
    simp [staleUnit, test]

/-! ## Big-endian to little-endian -/

theorem beToLe_single (upper : UInt16) {lower : UInt16} (test : followsOn lower = false)
    (u : UInt16) (rest : List UInt8) :
    fromUtf16beToUtf16leLoop ⟨upper, lower⟩ (bigEndian u ++ rest) =
      (fromUtf16beToUtf16leLoop ⟨u, lower⟩ rest).after (littleEndian u) := by
  obtain ⟨a, b, hu⟩ : ∃ a b, bigEndian u = [a, b] := two_bytes .big u
  have load : reverseWord (storeWord upper ((bigEndian u ++ rest).take 2)) = u :=
    storeWord_bytes .big upper u rest
  have single (w : UInt16) : isLowerSurrogatePair ⟨w, lower⟩ = false := test
  rw [hu] at load ⊢
  rw [List.cons_append, List.cons_append, List.nil_append, fromUtf16beToUtf16leLoop]
  simp only [List.take_succ_cons, List.take_zero, List.cons_append, List.nil_append] at load ⊢
  simp [load, single, glyphBytes]
  rfl

/-- A turn that tries to read a second unit ends the loop when it is there, and
writes the old half when it is not. -/
theorem beToLe_pair (upper : UInt16) {lower : UInt16} (test : followsOn lower = true)
    (u : UInt16) (rest : List UInt8) :
    fromUtf16beToUtf16leLoop ⟨upper, lower⟩ (bigEndian u ++ rest) =
      if rest = [] then ⟨littleEndian u ++ bigEndian lower, 0⟩ else ⟨[], 1⟩ := by
  obtain ⟨a, b, hu⟩ : ∃ a b, bigEndian u = [a, b] := two_bytes .big u
  have load : reverseWord (storeWord upper ((bigEndian u ++ rest).take 2)) = u :=
    storeWord_bytes .big upper u rest
  have pair (w : UInt16) : isLowerSurrogatePair ⟨w, lower⟩ = true := test
  rw [hu] at load ⊢
  rw [List.cons_append, List.cons_append, List.nil_append, fromUtf16beToUtf16leLoop]
  simp only [List.take_succ_cons, List.take_zero, List.cons_append, List.nil_append] at load ⊢
  cases rest with
  | nil =>
    have none : storeWord lower [] = lower := rfl
    simp [load, pair, none, fromUtf16beToUtf16leLoop, Conversion.after, glyphBytes,
      ← littleEndian_reverseWord]
    rfl
  | cons c rest => simp [load, pair]

theorem beToLe_singles (us : List UInt16) (upper : UInt16) {lower : UInt16}
    (test : followsOn lower = false) :
    (fromUtf16beToUtf16leLoop ⟨upper, lower⟩ (us.flatMap bigEndian)).outfile =
      us.flatMap littleEndian := by
  induction us generalizing upper with
  | nil => simp [fromUtf16beToUtf16leLoop]
  | cons u us ih =>
    rw [List.flatMap_cons, List.flatMap_cons, beToLe_single upper test, Conversion.after, ih]

theorem beToLe_iff (us : List UInt16) (upper lower : UInt16) :
    (fromUtf16beToUtf16leLoop ⟨upper, lower⟩ (us.flatMap bigEndian)).outfile =
      us.flatMap littleEndian ↔ us = [] ∨ followsOn lower = false := by
  cases test : followsOn lower with
  | false => simp [beToLe_singles us upper test]
  | true =>
    cases us with
    | nil => simp [fromUtf16beToUtf16leLoop]
    | cons u us =>
      rw [List.flatMap_cons, List.flatMap_cons, beToLe_pair upper test]
      cases us with
      | nil => simp [bigEndian_ne_nil]
      | cons v us => simp [bigEndian_ne_nil, littleEndian_ne_nil]

/-! ## Whole files -/

/-- The conversions only swap the bytes of each unit, and each undoes the other. -/
structure OnlySwaps (leBuf beBuf : Utf16Glyph) (us : List UInt16) : Prop where
  toBe : (fromUtf16leToUtf16be leBuf ([0xFF, 0xFE] ++ us.flatMap littleEndian)).outfile =
    [0xFE, 0xFF] ++ us.flatMap bigEndian
  toLe : (fromUtf16beToUtf16le beBuf ([0xFE, 0xFF] ++ us.flatMap bigEndian)).outfile =
    [0xFF, 0xFE] ++ us.flatMap littleEndian
  leUndone : (fromUtf16beToUtf16le beBuf
    (fromUtf16leToUtf16be leBuf ([0xFF, 0xFE] ++ us.flatMap littleEndian)).outfile).outfile =
      [0xFF, 0xFE] ++ us.flatMap littleEndian
  beUndone : (fromUtf16leToUtf16be leBuf
    (fromUtf16beToUtf16le beBuf ([0xFE, 0xFF] ++ us.flatMap bigEndian)).outfile).outfile =
      [0xFE, 0xFF] ++ us.flatMap bigEndian

theorem toBe_iff (us : List UInt16) (buf : Utf16Glyph) :
    (fromUtf16leToUtf16be buf ([0xFF, 0xFE] ++ us.flatMap littleEndian)).outfile =
        [0xFE, 0xFF] ++ us.flatMap bigEndian ↔
      us.length % 2 = 0 ∨
        ∃ w ∈ buf.lowerBytes :: (seconds us).map reverseWord, followsOn w = false := by
  rw [fromUtf16leToUtf16be, Conversion.after, writeBom_utf16be, ← staleUnit_eq_nil_iff]
  simp [leToBe_outfile]

theorem toLe_iff (us : List UInt16) (buf : Utf16Glyph) :
    (fromUtf16beToUtf16le buf ([0xFE, 0xFF] ++ us.flatMap bigEndian)).outfile =
        [0xFF, 0xFE] ++ us.flatMap littleEndian ↔
      us = [] ∨ followsOn buf.lowerBytes = false := by
  rw [fromUtf16beToUtf16le, Conversion.after, writeBom_utf16le]
  simp [beToLe_iff]

/-- The little-endian reader swaps a file of even length always, and one of odd
length unless every half it tests asks for another unit; the big-endian reader
only where the first half does not. -/
theorem onlySwaps_iff (us : List UInt16) (leBuf beBuf : Utf16Glyph) :
    OnlySwaps leBuf beBuf us ↔
      (us.length % 2 = 0 ∨
        ∃ w ∈ leBuf.lowerBytes :: (seconds us).map reverseWord, followsOn w = false) ∧
      (us = [] ∨ followsOn beBuf.lowerBytes = false) := by
  rw [← toBe_iff, ← toLe_iff]
  constructor
  · intro h
    exact ⟨h.toBe, h.toLe⟩
  · rintro ⟨toBe, toLe⟩
    refine ⟨toBe, toLe, ?_, ?_⟩
    · rw [toBe, toLe]
    · rw [toLe, toBe]

/-- One letter, with 0xDC01 in the local. -/
theorem swap_of_a_letter_fails :
    ¬ ∀ (us : List UInt16) (leBuf beBuf : Utf16Glyph), OnlySwaps leBuf beBuf us := by
  intro h
  have letter := (onlySwaps_iff [0x41] ⟨0, 0xDC01⟩ ⟨0, 0xDC01⟩).mp (h _ _ _)
  revert letter
  decide

end LinuxSystem.Utf
