import LinuxSystem.Utf.Glyph

/-!
# Whole streams

Both loops are described by the code points that pass through them, surrogates
included: `fromUtf8Loop_points` reads a sequence of them in UTF-8 layout and
`fromUtf16Loop_points` writes the sequence the UTF-16 reader takes.
-/

namespace LinuxSystem.Utf

open Unicode

theorem Conversion.after_nil : Conversion.after [] = id := rfl

theorem Conversion.after_append (a b : List UInt8) (r : Conversion) :
    (r.after b).after a = r.after (a ++ b) := by
  simp [Conversion.after]

/-- One turn of the UTF-8 loop. -/
theorem fromUtf8Loop_units (o : ByteOrder) {v : Nat} (hv : v < 0x110000) (buf : Utf8Glyph)
    (rest : List UInt8) :
    ∃ buf', fromUtf8Loop (codePointToUtf16Glyph o.swap) buf (utf8Units v ++ rest) =
      (fromUtf8Loop (codePointToUtf16Glyph o.swap) buf' rest).map
        (Conversion.after ((utf16Units v).flatMap o.bytes)) := by
  obtain ⟨first, more, units, length, read⟩ := readUtf8Glyph_units v (by omega)
  obtain ⟨buf', hbuf⟩ := read buf rest
  refine ⟨buf', ?_⟩
  rw [units, List.cons_append, fromUtf8Loop, hbuf, length, List.drop_left,
    ← glyphBytes_units o hv, Option.map_eq_bind]
  rfl

/-- The UTF-8 loop over any sequence of code points, then over what follows. -/
theorem fromUtf8Loop_append (o : ByteOrder) (vs : List Nat) (hv : ∀ v ∈ vs, v < 0x110000)
    (buf : Utf8Glyph) (rest : List UInt8) :
    ∃ buf', fromUtf8Loop (codePointToUtf16Glyph o.swap) buf (vs.flatMap utf8Units ++ rest) =
      (fromUtf8Loop (codePointToUtf16Glyph o.swap) buf' rest).map
        (Conversion.after ((vs.flatMap utf16Units).flatMap o.bytes)) := by
  induction vs generalizing buf with
  | nil => exact ⟨buf, by simp [Conversion.after_nil]⟩
  | cons v vs ih =>
    obtain ⟨buf₁, h₁⟩ := fromUtf8Loop_units o (hv v (by simp)) buf (vs.flatMap utf8Units ++ rest)
    obtain ⟨buf₂, h₂⟩ := ih (fun w hw => hv w (by simp [hw])) buf₁
    refine ⟨buf₂, ?_⟩
    rw [List.flatMap_cons, List.append_assoc, h₁, h₂, Option.map_map]
    congr 1
    funext r
    simp [Conversion.after_append]

theorem fromUtf8Loop_points (o : ByteOrder) (vs : List Nat) (hv : ∀ v ∈ vs, v < 0x110000)
    (buf : Utf8Glyph) :
    fromUtf8Loop (codePointToUtf16Glyph o.swap) buf (vs.flatMap utf8Units) =
      some ⟨(vs.flatMap utf16Units).flatMap o.bytes, 0⟩ := by
  obtain ⟨buf', h⟩ := fromUtf8Loop_append o vs hv buf []
  rw [List.append_nil] at h
  rw [h, fromUtf8Loop]
  simp [Conversion.after]

/-! ## What the UTF-16 reader takes -/

/-- The units `is_upper_surrogate_pair` accepts: all leading surrogates but the
first and the last. -/
def startsPair (u : UInt16) : Bool := 0xD800 < u && u < 0xDBFF

def pairPoint (u v : UInt16) : Nat := 0x10000 + (u.toNat - 0xD800) * 0x400 + v.toNat % 0x400

/-- The code points the UTF-16 reader makes of a sequence of units; a unit that
starts a pair is never the last one here. -/
def points : List UInt16 → List Nat
  | [] => []
  | [u] => [u.toNat]
  | u :: v :: rest =>
    if startsPair u then pairPoint u v :: points rest else u.toNat :: points (v :: rest)

theorem points_single {u : UInt16} (hu : startsPair u = false) (rest : List UInt16) :
    points (u :: rest) = u.toNat :: points rest := by
  cases rest <;> simp [points, hu]

theorem points_pair {u : UInt16} (hu : startsPair u = true) (v : UInt16) (rest : List UInt16) :
    points (u :: v :: rest) = pairPoint u v :: points rest := by
  simp [points, hu]

theorem startsPair_iff (u : UInt16) :
    startsPair u = true ↔ 0xD800 < u.toNat ∧ u.toNat < 0xDBFF := by
  simp [startsPair, UInt16.lt_iff_toNat_lt]

theorem utf16GlyphToCodePoint_single {u v : UInt16} (hu : startsPair u = false) :
    (utf16GlyphToCodePoint ⟨u, v⟩).toNat = u.toNat := by
  have : isUpperSurrogatePair ⟨u, v⟩ = false := hu
  simp [utf16GlyphToCodePoint, this]

theorem utf16GlyphToCodePoint_pair {u v : UInt16} (hu : startsPair u = true) :
    (utf16GlyphToCodePoint ⟨u, v⟩).toNat = pairPoint u v := by
  have upper : isUpperSurrogatePair ⟨u, v⟩ = true := hu
  obtain ⟨hl, hr⟩ := (startsPair_iff u).mp hu
  have high : ((u.toUInt32 - 0xD800) <<< 10).toNat = (u.toNat - 0xD800) * 2 ^ 10 := by
    rw [UInt32.toNat_shiftLeft, UInt32.toNat_sub_of_le _ _ (by
      simp [UInt32.le_iff_toNat_le]; omega), Nat.shiftLeft_eq]
    simp
    omega
  have low : ((v.toUInt32 - 0xDC00) &&& 0x3FF).toNat = v.toNat % 2 ^ 10 := by
    have := v.toNat_lt
    rw [UInt32.toNat_and, show UInt32.toNat 0x3FF = 2 ^ 10 - 1 from rfl,
      Nat.and_two_pow_sub_one_eq_mod, UInt32.toNat_sub]
    simp
    omega
  simp only [utf16GlyphToCodePoint, upper, Bool.not_true, Bool.false_eq_true, ↓reduceIte]
  rw [UInt32.toNat_add, UInt32.toNat_or, high, low, or_field _ (Nat.mod_lt _ (by decide)), pairPoint]
  simp
  omega

theorem points_lt (us : List UInt16) : ∀ v ∈ points us, v < 0x110000 := by
  induction us using points.induct with
  | case1 => simp [points]
  | case2 u =>
    have := u.toNat_lt
    simp [points]
    omega
  | case3 u v rest hu ih =>
    rw [points_pair hu]
    have := (startsPair_iff u).mp hu
    simp only [List.mem_cons, forall_eq_or_imp]
    exact ⟨by unfold pairPoint; omega, ih⟩
  | case4 u v rest hu ih =>
    rw [points_single (by simpa using hu)]
    have := u.toNat_lt
    simp only [List.mem_cons, forall_eq_or_imp]
    exact ⟨by omega, ih⟩

/-- The last unit does not ask for a second one. -/
def Closed (us : List UInt16) : Prop := ∀ u, us.getLast? = some u → startsPair u = false

theorem Closed.tail {u : UInt16} {us : List UInt16} (h : Closed (u :: us)) : Closed us := by
  intro w hw
  cases us with
  | nil => simp at hw
  | cons v rest => exact h w (by simpa [List.getLast?_cons_cons] using hw)

/-- One turn of the UTF-16 loop that reads a single unit. -/
theorem fromUtf16Loop_single (o : ByteOrder) {u : UInt16} (hu : startsPair u = false)
    (buf : Utf16Glyph) (rest : List UInt8) :
    fromUtf16Loop o.swap buf (o.bytes u ++ rest) =
      (fromUtf16Loop o.swap ⟨0, 0⟩ rest).map (Conversion.after (utf8Units u.toNat)) := by
  obtain ⟨a, b, hb⟩ : ∃ a b, o.bytes u = [a, b] := ⟨_, _, (o.written u).symm⟩
  have load := storeWord_bytes o buf.upperBytes u rest
  rw [hb] at load ⊢
  obtain ⟨glyph, size, encode, units⟩ :=
    codePointToUtf8Glyph_spec (utf16GlyphToCodePoint ⟨u, buf.lowerBytes⟩)
  rw [utf16GlyphToCodePoint_single hu] at units
  have single : isUpperSurrogatePair ⟨u, buf.lowerBytes⟩ = false := hu
  simp only [List.cons_append, List.nil_append, List.take_succ_cons, List.take_zero] at load
  simp only [List.cons_append, List.nil_append]
  rw [fromUtf16Loop]
  simp [load, single, encode, units, Option.map_eq_bind]

/-- One turn that reads a surrogate pair. -/
theorem fromUtf16Loop_pair (o : ByteOrder) {u : UInt16} (hu : startsPair u = true) (v : UInt16)
    (buf : Utf16Glyph) (rest : List UInt8) :
    fromUtf16Loop o.swap buf (o.bytes u ++ (o.bytes v ++ rest)) =
      (fromUtf16Loop o.swap ⟨0, 0⟩ rest).map (Conversion.after (utf8Units (pairPoint u v))) := by
  obtain ⟨a, b, hb⟩ : ∃ a b, o.bytes u = [a, b] := ⟨_, _, (o.written u).symm⟩
  obtain ⟨c, d, hd⟩ : ∃ c d, o.bytes v = [c, d] := ⟨_, _, (o.written v).symm⟩
  have load := storeWord_bytes o buf.upperBytes u (o.bytes v ++ rest)
  have second := storeWord_bytes o buf.lowerBytes v rest
  rw [hb, hd] at load ⊢
  rw [hd] at second
  obtain ⟨glyph, size, encode, units⟩ := codePointToUtf8Glyph_spec (utf16GlyphToCodePoint ⟨u, v⟩)
  rw [utf16GlyphToCodePoint_pair hu] at units
  have pair (w : UInt16) : isUpperSurrogatePair ⟨u, w⟩ = true := hu
  simp only [List.cons_append, List.nil_append, List.take_succ_cons, List.take_zero] at load second
  simp only [List.cons_append, List.nil_append]
  rw [fromUtf16Loop]
  simp [load, second, pair, encode, units, Option.map_eq_bind]

theorem fromUtf16Loop_points (o : ByteOrder) (us : List UInt16) (closed : Closed us)
    (buf : Utf16Glyph) :
    fromUtf16Loop o.swap buf (us.flatMap o.bytes) = some ⟨(points us).flatMap utf8Units, 0⟩ := by
  induction us using points.induct generalizing buf with
  | case1 => simp [fromUtf16Loop, points]
  | case2 u =>
    have hu := closed u rfl
    have h := fromUtf16Loop_single o hu buf []
    rw [List.append_nil, fromUtf16Loop] at h
    simpa [points, Conversion.after] using h
  | case3 u v rest hu ih =>
    rw [List.flatMap_cons, List.flatMap_cons, fromUtf16Loop_pair o hu, ih closed.tail.tail,
      points_pair hu]
    simp [Conversion.after]
  | case4 u v rest hu ih =>
    have hu' : startsPair u = false := by simpa using hu
    rw [List.flatMap_cons, fromUtf16Loop_single o hu', ih closed.tail, points_single hu']
    simp [Conversion.after]

end LinuxSystem.Utf
